import LazyTree.Text.PrintTable

/-!
Texts between double quotes, in two spellings: for a reader of error lines (`quoted`), where
everything that cannot be seen is written by its number, and for JSON (`json`).
-/
namespace LazyTree.Text

def hexDigits (n : Nat) : List Char := Nat.toDigits 16 n

def isVisible (c : Char) : Bool :=
  !inRanges unprintableRanges c && !inRanges attachedMarkRanges c

def escapeVisible (c : Char) : List Char :=
  if c = '\x22' then ['\x5c', '\x22']
  else if c = '\x5c' then ['\x5c', '\x5c']
  else if c = '\n' then ['\x5c', 'n']
  else if c = '\r' then ['\x5c', 'r']
  else if c = '\t' then ['\x5c', 't']
  else if c = '\x00' then ['\x5c', '0']
  else if isVisible c then [c]
  else ['\x5c', 'u', '\x7b'] ++ hexDigits c.toNat ++ ['\x7d']

def quoted (s : String) : String :=
  String.ofList ('\x22' :: s.toList.flatMap escapeVisible ++ ['\x22'])

/-- A control character without a short escape is written with four digits. -/
def escapeJson (c : Char) : List Char :=
  if c = '\x22' then ['\x5c', '\x22']
  else if c = '\x5c' then ['\x5c', '\x5c']
  else if c = '\x08' then ['\x5c', 'b']
  else if c = '\x0c' then ['\x5c', 'f']
  else if c = '\n' then ['\x5c', 'n']
  else if c = '\r' then ['\x5c', 'r']
  else if c = '\t' then ['\x5c', 't']
  else if c.toNat < 0x10 then ['\x5c', 'u', '0', '0', '0'] ++ hexDigits c.toNat
  else if c.toNat < 0x20 then ['\x5c', 'u', '0', '0'] ++ hexDigits c.toNat
  else [c]

def json (s : String) : String :=
  String.ofList ('\x22' :: s.toList.flatMap escapeJson ++ ['\x22'])

end LazyTree.Text
