import LazyTree.Toml.Quoted
import LazyTree.Toml.Scalar
import LazyTree.Toml.Table

/-!
The expressions a TOML document is made of: table headers, and keys with their values.
-/
namespace LazyTree.Toml

/-- A dotted key has fewer than this many parts, and values are nested less deep. -/
def nestingLimit : Nat := 80

def isKeyChar (c : Char) : Bool :=
  ('a' ≤ c && c ≤ 'z') || ('A' ≤ c && c ≤ 'Z') || c.isDigit || c = '-' || c = '_'

/-- One part of a key: a bare word, or a quoted text on one line. -/
def keyPart : Reader String
  | '\x22' :: rest => asText (basicText rest)
  | '\x27' :: rest => asText (literalText rest)
  | input =>
    match input.takeWhile isKeyChar with
    | [] => none
    | word => some (String.ofList word, input.dropWhile isKeyChar)

def dottedKey : Nat → Reader (List String)
  | 0, _ => none
  | parts + 1, input =>
    match keyPart (skipBlanks input) with
    | none => none
    | some (part, rest) =>
      match skipBlanks rest with
      | '.' :: rest' => (dottedKey parts rest').map (fun r => (part :: r.1, r.2))
      | rest' => some ([part], rest')

def key : Reader (List String) := dottedKey (nestingLimit - 1)

/-- Passes over blanks, line breaks and comments; a comment has to end with its line. -/
def skipLines (inComment : Bool) : List Char → Option (List Char)
  | [] => if inComment then none else some []
  | '\r' :: '\n' :: rest => skipLines false rest
  | '\n' :: rest => skipLines false rest
  | c :: rest =>
    if inComment then (if isPlain c then skipLines true rest else none)
    else if isBlank c then skipLines false rest
    else if c = '#' then skipLines true rest
    else some (c :: rest)

/-- The rest of an array, with room for `count` elements. -/
def elements (element : Reader Toml) : Nat → Reader (List Toml)
  | 0, _ => none
  | count + 1, input =>
    match skipLines false input with
    | none => none
    | some (']' :: rest) => some ([], rest)
    | some start =>
      match element start with
      | none => none
      | some (value, rest) =>
        match skipLines false rest with
        | some (',' :: rest') =>
          (elements element count rest').map (fun r => (value :: r.1, r.2))
        | some (']' :: rest') => some ([value], rest')
        | _ => none

def member (element : Reader Toml) (input : List Char) :
    Option ((List String × Toml) × List Char) :=
  match key input with
  | some (path, '=' :: rest) =>
    (element (skipBlanks rest)).map (fun r => ((path, r.1), r.2))
  | _ => none

/-- The members of an inline table, at least one and at most `count`, all on one line. -/
def members (element : Reader Toml) : Nat → Reader (List (List String × Toml))
  | 0, _ => none
  | count + 1, input =>
    match member element input with
    | none => none
    | some (first, rest) =>
      match skipBlanks rest with
      | ',' :: rest' => (members element count rest').map (fun r => (first :: r.1, r.2))
      | '\x7d' :: rest' => some ([first], rest')
      | _ => none

def inlineTable (element : Reader Toml) (input : List Char) : Option (Toml × List Char) :=
  match skipBlanks input with
  | '\x7d' :: rest => some (.table .inlined [], rest)
  | start =>
    match members element start.length start with
    | none => none
    | some (listed, rest) =>
      (addAll listed []).map (fun entries => (.table .inlined entries, rest))

/-- A value in which others are nested at most `depth` deep. -/
def value : Nat → Reader Toml
  | _, '\x22' :: rest => (quotedText ('\x22' :: rest)).map (fun r => (.string r.1, r.2))
  | _, '\x27' :: rest => (quotedText ('\x27' :: rest)).map (fun r => (.string r.1, r.2))
  | 0, input => scalar input
  | depth + 1, '[' :: rest =>
    (elements (value depth) (rest.length + 1) rest).map (fun r => (.array r.1, r.2))
  | depth + 1, '\x7b' :: rest => inlineTable (value depth) rest
  | _, input => scalar input

inductive Expression where
  /-- A header that opens a table. -/
  | openTable (path : List String)
  /-- A header that adds an element to an array of tables. -/
  | addElement (path : List String)
  | assign (path : List String) (value : Toml)
deriving Repr

/-- What follows a line that may end with a comment. -/
def lineEnd (inComment : Bool) : List Char → Option (List Char)
  | [] => some []
  | '\r' :: '\n' :: rest => some rest
  | '\n' :: rest => some rest
  | c :: rest =>
    if inComment then (if isPlain c then lineEnd true rest else none)
    else if isBlank c then lineEnd false rest
    else if c = '#' then lineEnd true rest
    else none

/-- A header or an assignment, with the end of its line. -/
def expression (input : List Char) : Option (Expression × List Char) :=
  match input with
  | '[' :: '[' :: rest =>
    match key rest with
    | some (path, ']' :: ']' :: rest') =>
      (lineEnd false rest').map (fun left => (.addElement path, left))
    | _ => none
  | '[' :: rest =>
    match key rest with
    | some (path, ']' :: rest') =>
      (lineEnd false rest').map (fun left => (.openTable path, left))
    | _ => none
  | _ =>
    match member (value (nestingLimit - 1)) input with
    | some ((path, v), rest) => (lineEnd false rest).map (fun left => (.assign path v, left))
    | none => none

/-- All expressions of a text, `count` at most. -/
def expressions : Nat → List Char → Option (List Expression)
  | 0, _ => none
  | count + 1, input =>
    match skipBlanks input with
    | [] => some []
    | '\n' :: rest => expressions count rest
    | '\r' :: '\n' :: rest => expressions count rest
    | '#' :: rest => (lineEnd true rest).bind (expressions count)
    | start =>
      match expression start with
      | none => none
      | some (first, rest) => (expressions count rest).map (fun r => first :: r)

end LazyTree.Toml
