/-!
What a batch of filesystem changes touched, in the namespace of a tree.
-/
namespace LazyTree

inductive Touched where
  /-- The root itself: anything shown may be out of date. -/
  | root
  /-- The directories whose listings changed, in ascending order and each once. -/
  | dirs (paths : List String)
deriving DecidableEq, Repr

/-- Adds a path to an ascending list without repetition. -/
def insertPath (path : String) : List String → List String
  | [] => [path]
  | p :: rest =>
    match compare path p with
    | .lt => path :: p :: rest
    | .eq => p :: rest
    | .gt => p :: insertPath path rest

/-- The paths in ascending order, each once. -/
def ascending (paths : List String) : List String :=
  paths.foldr insertPath []

def Touched.ofDirs (paths : List String) : Touched := .dirs (ascending paths)

end LazyTree
