import LazyTree.Listing
import LazyTree.Merge

/-!
A filtered and sorted view over a directory hierarchy, of which only the volume root, expanded
directories and the way to the selection are listed. Here are its state and what can be read off it.
-/
namespace LazyTree

structure TreeView where
  filter : NameFilter
  volumes : VolumeMap
  arena : Arena
  root : Option NodeId
  selected : Option NodeId
deriving Repr, Inhabited

namespace TreeView

def unbound (filter : NameFilter) (volumes : VolumeMap) : TreeView :=
  ⟨filter, volumes, .empty, none, none⟩

def node? (tree : TreeView) (id : NodeId) : Option Node := tree.arena.get? id

def holds (tree : TreeView) (id : NodeId) : Bool := tree.arena.contains id

def children (tree : TreeView) (id : NodeId) : List NodeId := tree.arena.childrenOf id

def size (tree : TreeView) : Nat := tree.arena.size

def pathOf? (tree : TreeView) (id : NodeId) : Option String :=
  (tree.node? id).map Node.path

def rootPath? (tree : TreeView) : Option String := tree.root.bind tree.pathOf?

def selectedPath? (tree : TreeView) : Option String := tree.selected.bind tree.pathOf?

/-- The first child on the way to a path. -/
def wayTo? (tree : TreeView) (parent : NodeId) (target : String) : Option NodeId :=
  (tree.children parent).find? (fun child =>
    match tree.pathOf? child with
    | some path => Path.covers path target
    | none => false)

/-- Descends from `id` towards a path for at most `depth` nodes. -/
def findFrom? (tree : TreeView) (target : String) : Nat → NodeId → Option NodeId
  | 0, _ => none
  | depth + 1, id =>
    match tree.pathOf? id with
    | none => none
    | some path =>
      if path = target then some id
      else (tree.wayTo? id target).bind (findFrom? tree target depth)

/-- The materialized node at a path. No way down is longer than there are nodes. -/
def find? (tree : TreeView) (target : String) : Option NodeId :=
  tree.root.bind (tree.findFrom? (Path.normalize target) tree.size)

def clear (tree : TreeView) : TreeView :=
  { tree with arena := tree.arena.clear, root := none, selected := none }

end TreeView

end LazyTree
