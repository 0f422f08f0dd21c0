import LazyTree.Path

/-!
Paths of the host, compared component by component: repeated and trailing separators do not count,
nor does `.` except as the first component.
-/
namespace LazyTree.Host

inductive Component where
  | root
  /-- A leading `.`. -/
  | current
  | up
  | name (text : String)
deriving DecidableEq, Repr, Inhabited

namespace Component

def text : Component → String
  | root => "/"
  | current => "."
  | up => ".."
  | name text => text

def ofPiece (piece : List Char) : Component :=
  if piece = ['.', '.'] then up else name (String.ofList piece)

end Component

def isAbsolute (path : String) : Bool := Path.startsWithSeparator path.toList

/-- The first component, where it is one that only counts there. -/
def leadingComponent (path : String) : List Component :=
  if isAbsolute path then [.root]
  else
    match Path.pieces path.toList with
    | ['.'] :: _ => [.current]
    | _ => []

def components (path : String) : List Component :=
  leadingComponent path ++
    ((Path.pieces path.toList).filter (fun p => p ≠ [] ∧ p ≠ ['.'])).map Component.ofPiece

def remainder? : List Component → List Component → Option (List Component)
  | [], path => some path
  | _ :: _, [] => none
  | a :: base, b :: path => if a = b then remainder? base path else none

def below? (base path : String) : Option (List Component) :=
  remainder? (components base) (components path)

/-- A path extended by text that does not start with a separator. -/
def extend (base rest : String) : String :=
  match base.toList.getLast? with
  | none => rest
  | some '/' => base ++ rest
  | some _ => base ++ "/" ++ rest

end LazyTree.Host
