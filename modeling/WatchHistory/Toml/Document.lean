import WatchHistory.Toml.Scalar

/-!
# Reading TOML documents

A document is read line by line into statements, which are then put together as tables.
`Toml.read?` gives the root table of a document.
-/

set_option autoImplicit false

namespace WatchHistory.Toml

/-! ## Keys -/

def isBareKeyChar (c : Char) : Bool := c.isAlphanum || c = '_' || c = '-'

/-- One part of a key: quoted on one line, or bare. -/
def keyPart? : List Char → Option (String × List Char)
  | '"' :: cs => basicText? (cs.length + 1) [] cs
  | '\'' :: cs => literalText? cs
  | cs =>
    let bare := cs.takeWhile isBareKeyChar
    if bare.isEmpty then none else some (String.ofList bare, cs.drop bare.length)

/-- The greatest number of parts of a key, and of arrays and tables within one another. -/
def maxDepth : Nat := 79

/-- The parts of a dotted key, at most `limit`, and the text after the key and its blanks. -/
def key? : (limit : Nat) → List Char → Option (List String × List Char)
  | 0, _ => none
  | limit + 1, cs => do
    let (part, rest) ← keyPart? (skipSpace cs)
    match skipSpace rest with
    | '.' :: rest => do
      let (parts, rest) ← key? limit rest
      return (part :: parts, rest)
    | rest => return ([part], rest)

/-! ## Values -/

/-- A comment from after its `#`, as far as the end of its line. -/
def skipComment (cs : List Char) : List Char := cs.dropWhile isPlain

/-- Skip blanks, comments and line ends. -/
def skipLines : (fuel : Nat) → List Char → Option (List Char)
  | 0, cs => some cs
  | fuel + 1, cs =>
    match skipSpace cs with
    | '#' :: cs =>
      match lineEnd? (skipComment cs) with
      | some rest => skipLines fuel rest
      | none => none
    | cs =>
      match lineEnd? cs with
      | some rest => skipLines fuel rest
      | none => some cs

/-- The table of the pairs between braces. -/
def inlineTable? (pairs : List (List String × Toml)) : Option Toml :=
  (pairs.foldlM (fun es pair => Entries.addPair es pair.1 pair.2) []).map (.table .inline)

mutual

/-- A value, where `fuel` is more than twice the length of the text and `depth` is how many more
arrays and tables may be opened. -/
def value? : (fuel : Nat) → (depth : Nat) → List Char → Option (Toml × List Char)
  | 0, _, _ => none
  | fuel + 1, depth, cs =>
    match cs with
    | '[' :: rest =>
      match depth with
      | 0 => none
      | depth + 1 => do
        let (items, rest) ← items? fuel depth rest
        return (.array items, rest)
    | '\x7b' :: rest =>
      match depth with
      | 0 => none
      | depth + 1 =>
        match skipSpace rest with
        | '\x7d' :: rest => some (.table .inline [], rest)
        | rest => do
          let (pairs, rest) ← pairs? fuel depth rest
          return (← inlineTable? pairs, rest)
    | '"' :: _ | '\'' :: _ => (quotedText? cs).map fun r => (.text r.1, r.2)
    | _ =>
      if "true".toList.isPrefixOf cs then some (.bool true, cs.drop 4)
      else if "false".toList.isPrefixOf cs then some (.bool false, cs.drop 5)
      else numberOrTime? cs

/-- The items of an array and its closing bracket. A comma may follow the last item. -/
def items? : (fuel : Nat) → (depth : Nat) → List Char → Option (List Toml × List Char)
  | 0, _, _ => none
  | fuel + 1, depth, cs => do
    match ← skipLines cs.length cs with
    | ']' :: rest => return ([], rest)
    | cs => do
      let (item, rest) ← value? fuel depth cs
      match ← skipLines rest.length rest with
      | ',' :: rest => do
        let (items, rest) ← items? fuel depth rest
        return (item :: items, rest)
      | ']' :: rest => return ([item], rest)
      | _ => none

/-- The pairs of an inline table, at least one, and its closing brace. -/
def pairs? : (fuel : Nat) → (depth : Nat) → List Char →
    Option (List (List String × Toml) × List Char)
  | 0, _, _ => none
  | fuel + 1, depth, cs => do
    let (path, rest) ← key? maxDepth cs
    match rest with
    | '=' :: rest => do
      let (value, rest) ← value? fuel depth (skipSpace rest)
      match skipSpace rest with
      | ',' :: rest => do
        let (pairs, rest) ← pairs? fuel depth rest
        return ((path, value) :: pairs, rest)
      | '\x7d' :: rest => return ([(path, value)], rest)
      | _ => none
    | _ => none

end

/-! ## Statements -/

/-- The rest of a text after the end of a statement: blanks, a comment and a line end, or nothing
more. -/
def endOfStatement? (cs : List Char) : Option (List Char) :=
  let rest := match skipSpace cs with
    | '#' :: cs => skipComment cs
    | cs => cs
  match rest with
  | [] => some []
  | rest => lineEnd? rest

/-- The statement at the front of a text, which starts neither with a blank nor with a line end. -/
def statement? (cs : List Char) : Option (Statement × List Char) :=
  match cs with
  | '[' :: '[' :: rest => do
    match ← key? maxDepth rest with
    | (path, ']' :: ']' :: rest) => return (.arrayHeader path, ← endOfStatement? rest)
    | _ => none
  | '[' :: rest => do
    match ← key? maxDepth rest with
    | (path, ']' :: rest) => return (.header path, ← endOfStatement? rest)
    | _ => none
  | _ => do
    match ← key? maxDepth cs with
    | (path, '=' :: rest) =>
      let (value, rest) ← value? (2 * rest.length + 2) maxDepth (skipSpace rest)
      return (.pair path value, ← endOfStatement? rest)
    | _ => none

/-- Every statement of a text, where `fuel` is more than its length. -/
def statements? : (fuel : Nat) → List Char → Option (List Statement)
  | 0, _ => none
  | fuel + 1, cs =>
    match skipSpace cs with
    | [] => some []
    | cs =>
      if cs.head? = some '#' || (lineEnd? cs).isSome then
        (endOfStatement? cs).bind (statements? fuel)
      else do
        let (statement, rest) ← statement? cs
        return statement :: (← statements? fuel rest)

/-- The mark that may stand before a text. -/
def byteOrderMark : Char := '\ufeff'

/-- The root table of a document. -/
def read? (text : String) : Option Entries :=
  let cs := match text.toList with
    | [] => []
    | c :: cs => if c = byteOrderMark then cs else c :: cs
  (statements? (cs.length + 1) cs).bind ofStatements?

end WatchHistory.Toml
