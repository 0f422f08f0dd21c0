/-!
Paths of the virtual namespace, written with `/`. A path is a text; its segments are the pieces
between separators that name something, and `render` writes segments back.
-/
namespace LazyTree.Path

/-- The pieces of a text between separators, empty ones included. -/
def pieces : List Char → List (List Char)
  | [] => [[]]
  | c :: cs =>
    if c = '/' then [] :: pieces cs
    else
      match pieces cs with
      | [] => [[c]]
      | p :: ps => (c :: p) :: ps

def namedPieces (path : String) : List String :=
  ((pieces path.toList).filter (fun p => p ≠ [])).map String.ofList

/-- The pieces of a path that descend: neither empty nor `.`. -/
def segments (path : String) : List String :=
  ((pieces path.toList).filter (fun p => p ≠ [] ∧ p ≠ ['.'])).map String.ofList

def render : List String → String
  | [] => "/"
  | segs => String.join (segs.map (fun s => "/" ++ s))

/-- Leading separator, no repeated or trailing separators, no `.` segments. -/
def normalize (path : String) : String :=
  render (segments path)

def firstSegments (path : String) (count : Nat) : String :=
  render ((namedPieces path).take count)

def after? : List Char → List Char → Option (List Char)
  | [], text => some text
  | _ :: _, [] => none
  | a :: lead, b :: text => if a = b then after? lead text else none

def startsWithSeparator : List Char → Bool
  | c :: _ => c = '/'
  | [] => false

/-- Whether `child` is `parent` or lies below it; `/a/b` is not above `/a/bc`. -/
def covers (parent child : String) : Bool :=
  if parent = child then true
  else if parent = "/" then startsWithSeparator child.toList
  else
    match after? parent.toList child.toList with
    | some rest => startsWithSeparator rest
    | none => false

/-- The text without the separators at its end, reversed. -/
def trimmedReverse (path : String) : List Char :=
  path.toList.reverse.dropWhile (fun c => c = '/')

def child (dir name : String) : String :=
  if dir.toList.getLast? = some '/' then dir ++ name else dir ++ "/" ++ name

/-- The last segment of a path, or the path itself when it names nothing but the top. -/
def lastName (path : String) : String :=
  match trimmedReverse path with
  | [] => path
  | t => String.ofList (t.takeWhile (fun c => c ≠ '/')).reverse

/-- The directory that holds a path; none for the top and for a bare name. -/
def above? (path : String) : Option String :=
  match (trimmedReverse path).dropWhile (fun c => c ≠ '/') with
  | [] => none
  | _ :: [] => some "/"
  | _ :: above => some (String.ofList above.reverse)

end LazyTree.Path
