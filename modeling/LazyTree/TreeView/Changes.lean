import LazyTree.Touched
import LazyTree.TreeView.Refresh

/-!
Following changes that happened outside the tree.
-/
namespace LazyTree.TreeView

variable {σ : Type}

/-- Descends from `id` to the node of a changed directory for at most `depth` nodes. -/
def ownerFrom? (tree : TreeView) (changed : String) : Nat → NodeId → Option NodeId
  | 0, _ => none
  | depth + 1, id =>
    match tree.pathOf? id with
    | none => none
    | some path =>
      if path = changed then some id
      else if Path.covers path changed then
        (tree.wayTo? id changed).bind (ownerFrom? tree changed depth)
      else none

/-- The node whose listing shows a changed directory, if it is materialized. -/
def owner? (tree : TreeView) (changed : String) : Option NodeId :=
  tree.root.bind (tree.ownerFrom? (Path.normalize changed) tree.size)

/-- Refreshes the node of a changed directory and no other. The answer says whether there is one. -/
def follow (fs : FileSystem σ) (changed : String) (tree : TreeView) (s : σ) :
    Except Failure Bool × TreeView × σ :=
  match tree.owner? changed with
  | none => (.ok false, tree, s)
  | some id =>
    match refresh fs id false tree s with
    | (.ok _, tree, s) => (.ok true, tree, s)
    | (.error e, tree, s) => (.error e, tree, s)

/-- Handles changed directories in turn. One that cannot be refreshed does not stop the others. -/
def followDirs (fs : FileSystem σ) :
    List String → Bool → TreeView → σ → Bool × TreeView × σ
  | [], refreshed, tree, s => (refreshed, tree, s)
  | dir :: dirs, refreshed, tree, s =>
    match follow fs dir tree s with
    | (.ok hit, tree, s) => followDirs fs dirs (refreshed || hit) tree s
    | (.error _, tree, s) => followDirs fs dirs refreshed tree s

/-- Refreshes whatever a batch touched; the answer says whether any node was refreshed. -/
def followAll (fs : FileSystem σ) (changes : Touched) (tree : TreeView) (s : σ) :
    Except Failure Bool × TreeView × σ :=
  match changes with
  | .root =>
    match tree.root with
    | none => (.ok false, tree, s)
    | some root =>
      match refresh fs root true tree s with
      | (.ok _, tree, s) => (.ok true, tree, s)
      | (.error e, tree, s) => (.error e, tree, s)
  | .dirs dirs =>
    let (refreshed, tree, s) := followDirs fs dirs false tree s
    (.ok refreshed, tree, s)

end LazyTree.TreeView
