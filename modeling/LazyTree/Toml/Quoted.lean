import LazyTree.Toml.Value

/-!
Character classes of TOML, and its four kinds of quoted text. A line break inside a text over
several lines reads as a line feed, however it is written.
-/
namespace LazyTree.Toml

def isBlank (c : Char) : Bool := c = ' ' || c = '\t'

/-- What may stand in a comment, and in a text when it has no meaning there. -/
def isPlain (c : Char) : Bool := c = '\t' || (0x20 ≤ c.toNat && c.toNat ≠ 0x7F)

def skipBlanks (input : List Char) : List Char := input.dropWhile isBlank

def hexValue? (c : Char) : Option Nat :=
  if '0' ≤ c ∧ c ≤ '9' then some (c.toNat - '0'.toNat)
  else if 'a' ≤ c ∧ c ≤ 'f' then some (c.toNat - 'a'.toNat + 10)
  else if 'A' ≤ c ∧ c ≤ 'F' then some (c.toNat - 'A'.toNat + 10)
  else none

def hexNumber? (digits : List Char) : Option Nat :=
  digits.foldlM (fun n c => (hexValue? c).map (fun d => 16 * n + d)) 0

/-- The character with a hexadecimal number; surrogates are none. -/
def hexChar? (digits : List Char) : Option Char :=
  match hexNumber? digits with
  | some n => if n.isValidChar then some (Char.ofNat n) else none
  | none => none

/-- The character that a letter stands for behind a backslash. -/
def escaped? : Char → Option Char
  | 'b' => some '\x08'
  | 't' => some '\t'
  | 'n' => some '\n'
  | 'f' => some '\x0c'
  | 'r' => some '\r'
  | '\x22' => some '\x22'
  | '\x5c' => some '\x5c'
  | _ => none

def consChar (c : Option Char) (rest : Option (List Char × List Char)) :
    Option (List Char × List Char) :=
  match c, rest with
  | some c, some (text, left) => some (c :: text, left)
  | _, _ => none

/-- The rest of a text in double quotes on one line. -/
def basicText : Reader (List Char)
  | [] => none
  | '\x22' :: rest => some ([], rest)
  | '\x5c' :: 'u' :: a :: b :: c :: d :: rest => consChar (hexChar? [a, b, c, d]) (basicText rest)
  | '\x5c' :: 'U' :: a :: b :: c :: d :: e :: f :: g :: h :: rest =>
    consChar (hexChar? [a, b, c, d, e, f, g, h]) (basicText rest)
  | '\x5c' :: c :: rest => consChar (escaped? c) (basicText rest)
  | c :: rest => consChar (if isPlain c && c ≠ '\x5c' then some c else none) (basicText rest)

/-- The rest of a text in single quotes on one line. -/
def literalText : Reader (List Char)
  | [] => none
  | '\x27' :: rest => some ([], rest)
  | c :: rest => consChar (if isPlain c then some c else none) (literalText rest)

/-- Whether a backslash here ends its line, so that the line break and the blanks around it are no
part of the text. -/
def endsLine (rest : List Char) : Bool :=
  match skipBlanks rest with
  | '\n' :: _ => true
  | '\r' :: '\n' :: _ => true
  | _ => false

/-- The rest of a text between three double quotes. Up to two quotes may stand directly before the
closing ones. While `skipping`, blanks and line breaks are passed over. -/
def basicLines (skipping : Bool) : Reader (List Char)
  | [] => none
  | '\x22' :: '\x22' :: '\x22' :: '\x22' :: '\x22' :: rest => some (['\x22', '\x22'], rest)
  | '\x22' :: '\x22' :: '\x22' :: '\x22' :: rest => some (['\x22'], rest)
  | '\x22' :: '\x22' :: '\x22' :: rest => some ([], rest)
  | '\r' :: '\n' :: rest =>
    if skipping then basicLines true rest else consChar (some '\n') (basicLines false rest)
  | '\n' :: rest =>
    if skipping then basicLines true rest else consChar (some '\n') (basicLines false rest)
  | '\x5c' :: 'u' :: a :: b :: c :: d :: rest =>
    consChar (hexChar? [a, b, c, d]) (basicLines false rest)
  | '\x5c' :: 'U' :: a :: b :: c :: d :: e :: f :: g :: h :: rest =>
    consChar (hexChar? [a, b, c, d, e, f, g, h]) (basicLines false rest)
  | '\x5c' :: c :: rest =>
    if endsLine (c :: rest) then
      (if c = '\r' then
        (match rest with
        | _ :: rest' => basicLines true rest'
        | [] => none)
      else basicLines true rest)
    else consChar (escaped? c) (basicLines false rest)
  | c :: rest =>
    if skipping && isBlank c then basicLines true rest
    else consChar (if isPlain c && c ≠ '\x5c' then some c else none) (basicLines false rest)

def literalLines : Reader (List Char)
  | [] => none
  | '\x27' :: '\x27' :: '\x27' :: '\x27' :: '\x27' :: rest => some (['\x27', '\x27'], rest)
  | '\x27' :: '\x27' :: '\x27' :: '\x27' :: rest => some (['\x27'], rest)
  | '\x27' :: '\x27' :: '\x27' :: rest => some ([], rest)
  | '\r' :: '\n' :: rest => consChar (some '\n') (literalLines rest)
  | '\n' :: rest => consChar (some '\n') (literalLines rest)
  | c :: rest => consChar (if isPlain c then some c else none) (literalLines rest)

/-- A line break directly behind the opening quotes does not count. -/
def dropFirstBreak : List Char → List Char
  | '\n' :: rest => rest
  | '\r' :: '\n' :: rest => rest
  | input => input

def asText (read : Option (List Char × List Char)) : Option (String × List Char) :=
  read.map (fun r => (String.ofList r.1, r.2))

def quotedText : Reader String
  | '\x22' :: '\x22' :: '\x22' :: rest => asText (basicLines false (dropFirstBreak rest))
  | '\x22' :: rest => asText (basicText rest)
  | '\x27' :: '\x27' :: '\x27' :: rest => asText (literalLines (dropFirstBreak rest))
  | '\x27' :: rest => asText (literalText rest)
  | _ => none

end LazyTree.Toml
