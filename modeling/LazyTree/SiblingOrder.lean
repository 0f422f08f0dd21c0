import LazyTree.Entry
import LazyTree.Text.Lowercase

/-!
The order of siblings: by lower-cased name, then by path. Two handles of one path count as equal
whatever their names. Listings are sorted by it and merged by it.
-/
namespace LazyTree

def siblingOrder (a b : Handle) : Ordering :=
  if a.path = b.path then .eq
  else (compare (Text.lowercase a.name) (Text.lowercase b.name)).then (compare a.path b.path)

/-- Puts a handle into a list kept in reverse order, behind every handle it does not precede. -/
def insertReversed (handle : Handle) : List Handle → List Handle
  | [] => [handle]
  | h :: rest =>
    if siblingOrder handle h = .lt then h :: insertReversed handle rest else handle :: h :: rest

/-- The handles in sibling order; those that compare equal keep their order. -/
def sortSiblings (handles : List Handle) : List Handle :=
  (handles.foldl (fun sorted h => insertReversed h sorted) []).reverse

end LazyTree
