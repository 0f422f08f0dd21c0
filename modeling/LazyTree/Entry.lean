import LazyTree.Path

/-!
What a directory listing holds (`Entry`) and what a tree node stands for (`Handle`).
-/
namespace LazyTree

/-- A placeholder has to be resolved before it can be listed; a search root is a shortcut without
children. -/
inductive HandleKind where
  | real
  | placeholder
  | searchRoot
deriving DecidableEq, Repr, Inhabited

def HandleKind.word : HandleKind → String
  | .real => "real"
  | .placeholder => "placeholder"
  | .searchRoot => "search_root"

/-- A reference to a directory. The label, where there is one, is shown instead of the name. -/
structure Handle where
  path : String
  name : String
  label : Option String
  kind : HandleKind
deriving DecidableEq, Repr, Inhabited

namespace Handle

def ofPath (kind : HandleKind) (path : String) : Handle :=
  ⟨path, Path.lastName path, none, kind⟩

def real (path : String) : Handle := ofPath .real path

def placeholder (path : String) : Handle := ofPath .placeholder path

def searchRoot (path label : String) : Handle :=
  { ofPath .searchRoot path with label := some label }

def labelled (handle : Handle) (label : String) : Handle :=
  { handle with label := some label }

def shownName (handle : Handle) : String :=
  handle.label.getD handle.name

def isUnresolved (handle : Handle) : Bool :=
  handle.kind = .placeholder

end Handle

/-- One item of a directory. A virtual one is known only as a placeholder. -/
structure Entry where
  path : String
  name : String
  isDirectory : Bool
  isVirtual : Bool
deriving DecidableEq, Repr, Inhabited

namespace Entry

def directory (path : String) : Entry :=
  ⟨path, Path.lastName path, true, false⟩

def file (path : String) : Entry :=
  { directory path with isDirectory := false }

def toHandle (entry : Entry) : Handle :=
  ⟨entry.path, entry.name, none, if entry.isVirtual then .placeholder else .real⟩

end Entry

end LazyTree
