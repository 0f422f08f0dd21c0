import LazyTree.TreeView.Refresh

/-!
Selecting a path. The tree is bound to the volume of the path, the way down is materialized level by
level, and what lies above the selection is expanded.
-/
namespace LazyTree.TreeView

variable {σ : Type}

/-- Rebinds the tree to a volume. The root stands for an unresolved directory until it is
refreshed. -/
def bindTo (tree : TreeView) (top : String) : TreeView × NodeId :=
  let cleared := tree.clear
  let (arena, id) := cleared.arena.insert (.placeholder top) none
  ({ cleared with arena := arena, root := some id }.setExpanded id true, id)

/-- The root of the volume, bound already or now. -/
def ensureRoot (tree : TreeView) (top : String) : TreeView × NodeId :=
  match tree.root with
  | some root =>
    if tree.rootPath? = some top then (tree, root) else tree.bindTo top
  | none => tree.bindTo top

/-- Expands a node and the nodes above it, `height` of them at most. -/
def expandUpwards (arena : Arena) : Nat → Option NodeId → Arena
  | 0, _ => arena
  | _, none => arena
  | height + 1, some id =>
    match arena.get? id with
    | none => arena
    | some node =>
      expandUpwards (arena.modify id (fun n => { n with expanded := true })) height node.parent

/-- Expands everything above a node, so that it is shown. -/
def uncover (tree : TreeView) (id : NodeId) : TreeView :=
  { tree with
    arena := expandUpwards tree.arena tree.size ((tree.node? id).bind Node.parent) }

/-- Refreshes one level of a selection. Its children will be seen, so they are checked also while
the level is collapsed. When the root cannot be refreshed the whole tree is dropped. -/
def listLevel (fs : FileSystem σ) (id root : NodeId) (tree : TreeView) (s : σ) :
    Except Failure Unit × TreeView × σ :=
  match refreshWith fs id false true tree s with
  | (.ok _, tree, s) => (.ok (), tree, s)
  | (.error e, tree, s) => (.error e, if id = root then tree.clear else tree, s)

def settle (tree : TreeView) (id : NodeId) : TreeView :=
  { tree.uncover id with selected := some id }

/-- Selects a node that was found, resolving it first if it is a placeholder. -/
def arriveAt (fs : FileSystem σ) (id root : NodeId) (handle : Handle)
    (tree : TreeView) (s : σ) : Except Failure NodeId × TreeView × σ :=
  if handle.isUnresolved then
    match listLevel fs id root tree s with
    | (.ok _, tree, s) => (.ok id, tree.settle id, s)
    | (.error e, tree, s) => (.error e, tree, s)
  else (.ok id, tree.settle id, s)

/-- Descends from `current` towards the target, through `budget` nodes at most. A level is refreshed
when no child leads on. The answer is `none` when the budget was too small, which takes a filesystem
that lists the same directory below itself over and over. -/
def descend (fs : FileSystem σ) (target : String) (root : NodeId) :
    Nat → NodeId → TreeView → σ → Option (Except Failure NodeId) × TreeView × σ
  | 0, _, tree, s => (none, tree, s)
  | budget + 1, current, tree, s =>
    match tree.node? current with
    | none => (some (.error (.detached current)), tree, s)
    | some node =>
      match fs.sameDirectory s node.handle (.real target) with
      | (true, s) =>
        let (answer, tree, s) := arriveAt fs current root node.handle tree s
        (some answer, tree, s)
      | (false, s) =>
        match tree.wayTo? current target with
        | some child => descend fs target root budget child tree s
        | none =>
          match listLevel fs current root tree s with
          | (.error e, tree, s) => (some (.error e), tree, s)
          | (.ok _, tree, s) =>
            match tree.wayTo? current target with
            | some child => descend fs target root budget child tree s
            | none => (some (.error (.notFound target)), tree, s)

/-- The selected node, when it is the target already. -/
def alreadySelected (fs : FileSystem σ) (target : String) (tree : TreeView) (s : σ) :
    Option NodeId × σ :=
  match tree.selected with
  | none => (none, s)
  | some id =>
    match tree.node? id with
    | none => (none, s)
    | some node =>
      match fs.sameDirectory s node.handle (.real target) with
      | (true, s) => (some id, s)
      | (false, s) => (none, s)

def selectWithin (fs : FileSystem σ) (budget : Nat) (path : String) (tree : TreeView)
    (s : σ) : Option (Except Failure NodeId) × TreeView × σ :=
  let target := Path.normalize path
  match alreadySelected fs target tree s with
  | (some id, s) => (some (.ok id), tree, s)
  | (none, s) =>
    let (tree, root) := tree.ensureRoot (tree.volumes.rootOf target)
    descend fs target root budget root { tree with selected := none } s

/-- Enough for every way down through existing nodes, and from there for two visits of each path
between the top and the target. -/
def descentBudget (tree : TreeView) (path : String) : Nat :=
  tree.size + 4 * ((Path.segments path).length + 3)

def select (fs : FileSystem σ) (path : String) (tree : TreeView) (s : σ) :
    Option (Except Failure NodeId) × TreeView × σ :=
  selectWithin fs (tree.descentBudget path) path tree s

end LazyTree.TreeView
