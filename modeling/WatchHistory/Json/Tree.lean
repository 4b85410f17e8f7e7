import WatchHistory.Json.Literal

/-!
# JSON texts as trees

A text is cut into tokens, and the tokens are put together by a machine with a stack of the arrays
and objects that are open. A tree keeps its string literals and numerals as they are written and
the members of its objects in order, repeated ones included: what they mean is for their reader.

* `Json.read?` reads a text, and `Json.render` writes a tree without blanks.
-/

set_option autoImplicit false

namespace WatchHistory

/-- A JSON value as it is written. -/
inductive Json
  | null
  | bool (value : Bool)
  | number (numeral : Json.Numeral)
  | text (literal : List Char)
  | array (items : List Json)
  | object (members : List (List Char × Json))

namespace Json

/-! ## Tokens -/

inductive Token
  | openArray
  | closeArray
  | openObject
  | closeObject
  | comma
  | colon
  | null
  | bool (value : Bool)
  | number (numeral : Numeral)
  | text (literal : List Char)
deriving DecidableEq

def isSpace (c : Char) : Bool := c = ' ' || c = '\t' || c = '\n' || c = '\r'

/-- The rest of a text after `word`. -/
def afterWord? (word cs : List Char) : Option (List Char) :=
  if word.isPrefixOf cs then some (cs.drop word.length) else none

/-- The token that starts with `c`, and the rest of the text. -/
def takeToken? (c : Char) (cs : List Char) : Option (Token × List Char) :=
  match c with
  | '[' => some (.openArray, cs)
  | ']' => some (.closeArray, cs)
  | '\x7b' => some (.openObject, cs)
  | '\x7d' => some (.closeObject, cs)
  | ',' => some (.comma, cs)
  | ':' => some (.colon, cs)
  | '"' => (Literal.take? cs).map fun r => (.text r.1, r.2)
  | 'n' => (afterWord? "ull".toList cs).map fun r => (.null, r)
  | 't' => (afterWord? "rue".toList cs).map fun r => (.bool true, r)
  | 'f' => (afterWord? "alse".toList cs).map fun r => (.bool false, r)
  | _ => (Numeral.take? (c :: cs)).map fun r => (.number r.1, r.2)

theorem length_of_afterWord? {word cs rest : List Char} (h : afterWord? word cs = some rest) :
    rest.length ≤ cs.length := by
  unfold afterWord? at h
  split at h
  · cases h
    simp
  · simp at h

/-- What is left after a token is no longer than what followed its first character. -/
theorem length_of_takeToken? {c : Char} {cs rest : List Char} {token : Token}
    (h : takeToken? c cs = some (token, rest)) : rest.length ≤ cs.length := by
  unfold takeToken? at h
  split at h
  case h_7 =>
    obtain ⟨⟨_, _⟩, hl, hr⟩ := Option.map_eq_some_iff.mp h
    cases hr
    exact Literal.length_of_take? hl
  case h_8 | h_9 | h_10 =>
    obtain ⟨_, hl, hr⟩ := Option.map_eq_some_iff.mp h
    cases hr
    exact length_of_afterWord? hl
  case h_11 =>
    obtain ⟨⟨_, _⟩, hl, hr⟩ := Option.map_eq_some_iff.mp h
    cases hr
    exact Nat.le_of_lt_succ (Numeral.length_of_take? hl)
  all_goals
    cases h
    exact Nat.le_refl _

/-- Every token of a text, behind those already `found` in reverse. -/
def tokensFrom (found : List Token) (cs : List Char) : Option (List Token) :=
  match cs with
  | [] => some found.reverse
  | c :: cs =>
    if isSpace c then tokensFrom found cs
    else match _h : takeToken? c cs with
      | none => none
      | some (token, rest) => tokensFrom (token :: found) rest
termination_by cs.length
decreasing_by
  · exact Nat.lt_succ_self _
  · exact Nat.lt_succ_of_le (length_of_takeToken? _h)

def tokens? (cs : List Char) : Option (List Token) := tokensFrom [] cs

/-! ## Trees -/

/-- An array or object that is not closed yet, with what it holds in reverse. -/
inductive Open
  | array (items : List Json)
  | object (members : List (List Char × Json))
  /-- An object that waits for the value of a member. -/
  | member (members : List (List Char × Json)) (name : List Char)

/-- What may come next. -/
inductive Next
  | value
  /-- A value, or the end of an array that has just been opened. -/
  | valueOrEnd
  | name
  /-- A name, or the end of an object that has just been opened. -/
  | nameOrEnd
  | colon
  /-- A comma, or the end of the array or object. -/
  | commaOrEnd
  /-- Nothing: the tree is complete. -/
  | done (tree : Json)

structure Machine where
  stack : List Open
  next : Next

/-- Put a complete value where it belongs. -/
def Machine.put (stack : List Open) (j : Json) : Option Machine :=
  match stack with
  | [] => some ⟨[], .done j⟩
  | .array items :: below => some ⟨.array (j :: items) :: below, .commaOrEnd⟩
  | .member members name :: below => some ⟨.object ((name, j) :: members) :: below, .commaOrEnd⟩
  | .object _ :: _ => none

/-- Start a value. -/
def Machine.startValue (stack : List Open) : Token → Option Machine
  | .null => put stack .null
  | .bool b => put stack (.bool b)
  | .number n => put stack (.number n)
  | .text s => put stack (.text s)
  | .openArray => some ⟨.array [] :: stack, .valueOrEnd⟩
  | .openObject => some ⟨.object [] :: stack, .nameOrEnd⟩
  | _ => none

/-- Close the innermost array or object. -/
def Machine.close (stack : List Open) (token : Token) : Option Machine :=
  match stack, token with
  | .array items :: below, .closeArray => put below (.array items.reverse)
  | .object members :: below, .closeObject => put below (.object members.reverse)
  | _, _ => none

def Machine.step (m : Machine) (token : Token) : Option Machine :=
  match m.next with
  | .value => startValue m.stack token
  | .valueOrEnd => if token = .closeArray then close m.stack token else startValue m.stack token
  | .name | .nameOrEnd =>
    match m.stack, token with
    | .object members :: below, .text s => some ⟨.member members s :: below, .colon⟩
    | _, .closeObject =>
      match m.next with
      | .nameOrEnd => close m.stack token
      | _ => none
    | _, _ => none
  | .colon => if token = .colon then some ⟨m.stack, .value⟩ else none
  | .commaOrEnd =>
    if token = .comma then
      match m.stack with
      | .array _ :: _ => some ⟨m.stack, .value⟩
      | .object _ :: _ => some ⟨m.stack, .name⟩
      | _ => none
    else close m.stack token
  | .done _ => none

/-- The tree of a list of tokens. -/
def ofTokens? (tokens : List Token) : Option Json := do
  let m ← tokens.foldlM Machine.step ⟨[], .value⟩
  match m.next with
  | .done tree => some tree
  | _ => none

/-- Read one JSON value with nothing but blanks around it. -/
def read? (text : String) : Option Json := (tokens? text.toList).bind ofTokens?

/-! ## Writing -/

/-- A literal between its quotes. -/
def quote (literal : List Char) : List Char := '"' :: (literal ++ ['"'])

mutual

/-- The text of a tree, without blanks. -/
def renderChars : Json → List Char
  | .null => "null".toList
  | .bool true => "true".toList
  | .bool false => "false".toList
  | .number n => n.render
  | .text s => quote s
  | .array items => '[' :: (renderItems items ++ [']'])
  | .object members => '\x7b' :: (renderMembers members ++ ['\x7d'])

/-- The items with commas between them. -/
def renderItems : List Json → List Char
  | [] => []
  | [j] => renderChars j
  | j :: k :: js => renderChars j ++ ',' :: renderItems (k :: js)

/-- The members with commas between them. -/
def renderMembers : List (List Char × Json) → List Char
  | [] => []
  | [(name, j)] => quote name ++ ':' :: renderChars j
  | (name, j) :: m :: ms => quote name ++ ':' :: (renderChars j ++ ',' :: renderMembers (m :: ms))

end

/-- The text of a tree, without blanks. -/
def render (j : Json) : String := String.ofList (renderChars j)

/-- The tree of a text. -/
def ofText (s : String) : Json := .text (Literal.encode s)

/-- The tree of a whole number. -/
def ofInt (i : Int) : Json := .number (Numeral.ofInt i)

/-- The tree of an object with the given members. -/
def ofMembers (members : List (String × Json)) : Json :=
  .object (members.map fun m => (Literal.encode m.1, m.2))

end Json

end WatchHistory
