import LazyTree.Entry

/-!
Which directories a tree shows.
-/
namespace LazyTree

structure NameFilter where
  showHidden : Bool
  /-- Names hidden whatever `showHidden` says. -/
  ignore : List String
deriving DecidableEq, Repr, Inhabited

namespace NameFilter

def hideDotNames : NameFilter := ⟨false, []⟩

def everything : NameFilter := ⟨true, []⟩

def isDotName (name : String) : Bool :=
  name.toList.head? = some '.'

def admits (filter : NameFilter) (name : String) : Bool :=
  (filter.showHidden || !isDotName name) && !filter.ignore.contains name

def admitsEntry (filter : NameFilter) (entry : Entry) : Bool :=
  filter.admits entry.name

def shows (filter : NameFilter) (entry : Entry) : Bool :=
  entry.isDirectory && filter.admitsEntry entry

end NameFilter

end LazyTree
