import LazyTree.Text.CaseTable

/-!
Lower case of a whole text, for all of Unicode. The capital sigma is the one letter whose lower case
depends on where it stands.
-/
namespace LazyTree.Text

def isCased (c : Char) : Bool := inRanges casedRanges c

def isCaseIgnorable (c : Char) : Bool := inRanges caseIgnorableRanges c

def capitalSigma : Char := 'Σ'

/-- Whether the first character that is not case-ignorable has case. -/
def meetsCased (cs : List Char) : Bool :=
  match cs.dropWhile isCaseIgnorable with
  | c :: _ => isCased c
  | [] => false

/-- A sigma ends a word when a letter comes before it and none after it. -/
def isFinalSigma (before after : List Char) : Bool :=
  meetsCased before && !meetsCased after

/-- The lower case of a character by itself. Only the dotted capital I has two characters. -/
def lowerChar (c : Char) : List Char :=
  if c.toNat < 0x80 then [c.toLower]
  else if c = 'İ' then ['i', '\u0307']
  else
    match lowerRows.find? (fun row => row.covers c.toNat) with
    | some row => [Char.ofNat (row.apply c.toNat)]
    | none => [c]

/-- Lower case of `after`, where `before` holds what precedes it, nearest first. -/
def lowerFrom (before : List Char) : List Char → List Char
  | [] => []
  | c :: after =>
    (if c = capitalSigma then
      (if isFinalSigma before after then ['ς'] else ['σ'])
    else lowerChar c) ++ lowerFrom (c :: before) after

def lowercase (s : String) : String :=
  String.ofList (lowerFrom [] s.toList)

end LazyTree.Text
