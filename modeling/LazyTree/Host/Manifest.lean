import LazyTree.Host.Change

/-!
The text form of a disk: one item on a line, in fields separated by tabs. The first field is
`dir`, `file` or `link`, the second a path, the third the text of a file or the target of a link.
In a field `\t`, `\n` and `\\` stand for a tab, a line break and a backslash.
-/
namespace LazyTree.Host.Manifest

def split (separator : Char) : List Char → List (List Char)
  | [] => [[]]
  | c :: cs =>
    if c = separator then [] :: split separator cs
    else
      match split separator cs with
      | [] => [[c]]
      | piece :: pieces => (c :: piece) :: pieces

def unescape : List Char → List Char
  | '\x5c' :: 't' :: rest => '\t' :: unescape rest
  | '\x5c' :: 'n' :: rest => '\n' :: unescape rest
  | '\x5c' :: '\x5c' :: rest => '\x5c' :: unescape rest
  | c :: rest => c :: unescape rest
  | [] => []

/-- The change that makes the item on a line; none for a line that describes no item. -/
def item? (line : List Char) : Option DiskChange :=
  match (split '\t' line).map (fun field => String.ofList (unescape field)) with
  | ["dir", path] => some (.makeDirectory path)
  | ["file", path] => some (.writeFile path "")
  | ["file", path, text] => some (.writeFile path text)
  | ["link", path, target] => some (.makeLink path target)
  | _ => none

/-- The disk that a text describes. Relative paths start at its top. -/
def disk (text : String) : Disk :=
  ((⟨[], []⟩ : Disk).applyAll ((split '\n' text.toList).filterMap item?)).disk

end LazyTree.Host.Manifest
