import LazyTree.TreeView

/-!
Refreshing nodes. A refresh is issued as a ticket, its listing is fetched, and the listing is
applied; a ticket counts only while it is the newest of its node. The operations here return their
answer, the tree and the filesystem's state, also when the answer is an error.
-/
namespace LazyTree

structure Ticket where
  node : NodeId
  generation : Nat
  handle : Handle
  recursive : Bool
deriving DecidableEq, Repr, Inhabited

inductive Application where
  | applied (outcome : MergeOutcome)
  /-- The node is gone, or a newer refresh of it was issued. -/
  | stale
deriving DecidableEq, Repr

structure Totals where
  /-- Nodes whose listing was applied. -/
  nodes : Nat
  inserted : Nat
  removed : Nat
  /-- Descendants whose refresh failed; they stay as they were. -/
  failed : Nat
  stale : Bool
  /-- Collapsed children checked for sub-directories. -/
  checked : Nat
deriving DecidableEq, Repr, Inhabited

namespace Totals

def zero : Totals := ⟨0, 0, 0, 0, false, 0⟩

def add (totals : Totals) (outcome : MergeOutcome) : Totals :=
  { totals with
    nodes := totals.nodes + 1
    inserted := totals.inserted + outcome.inserted
    removed := totals.removed + outcome.removed }

def addChecked (totals : Totals) (count : Nat) : Totals :=
  { totals with checked := totals.checked + count }

def addFailed (totals : Totals) : Totals :=
  { totals with failed := totals.failed + 1 }

end Totals

/-- What fetching needs of a tree, as it was at one moment. -/
structure Lister where
  filter : NameFilter
  volumes : VolumeMap
deriving DecidableEq, Repr, Inhabited

variable {σ : Type}

namespace Lister

def fetch (lister : Lister) (fs : FileSystem σ) (ticket : Ticket) (s : σ) :
    Except Failure Listing × σ :=
  fetchVisible fs lister.filter lister.volumes ticket.handle s

def wouldList (lister : Lister) (fs : FileSystem σ) (handle : Handle) (s : σ) :
    Except Failure Bool × σ :=
  wouldListAny fs lister.filter lister.volumes handle s

end Lister

namespace TreeView

def lister (tree : TreeView) : Lister := ⟨tree.filter, tree.volumes⟩

def modify (tree : TreeView) (id : NodeId) (f : Node → Node) : TreeView :=
  { tree with arena := tree.arena.modify id f }

/-- Issues a refresh, which outdates every earlier ticket of the node. -/
def issue (tree : TreeView) (id : NodeId) (recursive : Bool) :
    Except Failure Ticket × TreeView :=
  match tree.node? id with
  | none => (.error (.detached id), tree)
  | some node =>
    (.ok ⟨id, node.generation + 1, node.handle, recursive⟩,
      tree.modify id (fun n => { n with generation := n.generation + 1 }))

def dropDeadSelection (tree : TreeView) : TreeView :=
  match tree.selected with
  | some id => if tree.holds id then tree else { tree with selected := none }
  | none => tree

def adoptResolved (tree : TreeView) (id : NodeId) : Option Handle → TreeView
  | some handle => tree.modify id (fun node => { node with handle := handle })
  | none => tree

/-- Merges a fetched listing into the node of a ticket. The root stays expanded when it is empty. -/
def mergeFetched (tree : TreeView) (ticket : Ticket) (listing : Listing) :
    Except Failure Application × TreeView :=
  let tree := tree.adoptResolved ticket.node listing.resolved
  let keepOpen := tree.root = some ticket.node
  match tree.arena.mergeListing ticket.node listing.entries ticket.recursive keepOpen with
  | (.error e, arena) => (.error e, { tree with arena := arena })
  | (.ok outcome, arena) => (.ok (.applied outcome), dropDeadSelection { tree with arena := arena })

/-- Applies the result of a fetch. A stale ticket is dropped whether its fetch succeeded or not,
and a failed fetch leaves the node's children alone. -/
def applyFetched (tree : TreeView) (ticket : Ticket)
    (fetched : Except Failure Listing) : Except Failure Application × TreeView :=
  match tree.node? ticket.node with
  | none => (.ok .stale, tree)
  | some node =>
    if node.generation ≠ ticket.generation then (.ok .stale, tree)
    else
      match fetched with
      | .error e => (.error e, tree)
      | .ok listing => tree.mergeFetched ticket listing

def collapsedChildren (tree : TreeView) (parent : NodeId) :
    List (NodeId × Handle) :=
  (tree.children parent).filterMap (fun id =>
    match tree.node? id with
    | some node => if node.expanded then none else some (id, node.handle)
    | none => none)

/-- Notes the answer of a check, unless the node has been expanded. -/
def noteExpandable (tree : TreeView) (id : NodeId) (found : Bool) : TreeView :=
  tree.modify id (fun node => if node.expanded then node else { node with expandable := found })

/-- Checks each target for sub-directories; a failing check changes nothing. -/
def checkTargets (fs : FileSystem σ) (lister : Lister) :
    List (NodeId × Handle) → TreeView → σ → TreeView × σ
  | [], tree, s => (tree, s)
  | (id, handle) :: targets, tree, s =>
    match lister.wouldList fs handle s with
    | (.ok found, s') => checkTargets fs lister targets (tree.noteExpandable id found) s'
    | (.error _, s') => checkTargets fs lister targets tree s'

/-- Checks the collapsed children of a node and counts them. Nothing below them is listed. -/
def checkCollapsed (fs : FileSystem σ) (lister : Lister) (parent : NodeId)
    (tree : TreeView) (s : σ) : Nat × TreeView × σ :=
  let targets := tree.collapsedChildren parent
  (targets.length, checkTargets fs lister targets tree s)

/-- The state of a recursive refresh: the nodes still to be refreshed, the totals so far, the tree
and the filesystem. -/
structure Cascade (σ : Type) where
  queue : List NodeId
  totals : Totals
  tree : TreeView
  world : σ

namespace Cascade

/-- Checks the children of a node that was just listed, when the node is expanded. -/
def checkIfExpanded (fs : FileSystem σ) (lister : Lister) (id : NodeId)
    (c : Cascade σ) : Cascade σ :=
  if c.tree.arena.isExpanded id then
    let (count, tree, world) := checkCollapsed fs lister id c.tree c.world
    { c with totals := c.totals.addChecked count, tree := tree, world := world }
  else c

/-- Refreshes one node and queues its retained expanded children. -/
def refreshNode (fs : FileSystem σ) (lister : Lister) (id : NodeId)
    (c : Cascade σ) : Cascade σ :=
  match c.tree.issue id true with
  | (.error _, _) => c
  | (.ok ticket, tree) =>
    let (fetched, world) := lister.fetch fs ticket c.world
    match tree.applyFetched ticket fetched with
    | (.ok (.applied outcome), tree') =>
      checkIfExpanded fs lister id
        { queue := c.queue ++ outcome.cascade
          totals := c.totals.add outcome
          tree := tree'
          world := world }
    | (.ok .stale, tree') => { c with tree := tree', world := world }
    | (.error _, tree') => { c with totals := c.totals.addFailed, tree := tree', world := world }

def step (fs : FileSystem σ) (lister : Lister) (c : Cascade σ) : Cascade σ :=
  match c.queue with
  | [] => c
  | id :: queue => refreshNode fs lister id { c with queue := queue }

/-- Refreshes queued nodes in turn, `count` of them at most. -/
def run (fs : FileSystem σ) (lister : Lister) : Nat → Cascade σ → Cascade σ
  | 0, c => c
  | count + 1, c => if c.queue.isEmpty then c else run fs lister count (step fs lister c)

end Cascade

/-- Refreshes a node and then, breadth first, the expanded nodes it leads to; each of them is
visited once, so there are no more visits than nodes. With `checkAlways` the node's children are
checked for sub-directories also while it is collapsed. -/
def refreshWith (fs : FileSystem σ) (id : NodeId) (recursive checkAlways : Bool)
    (tree : TreeView) (s : σ) : Except Failure Totals × TreeView × σ :=
  let lister := tree.lister
  match tree.issue id recursive with
  | (.error e, tree) => (.error e, tree, s)
  | (.ok ticket, tree) =>
    let (fetched, s) := lister.fetch fs ticket s
    match tree.applyFetched ticket fetched with
    | (.error e, tree) => (.error e, tree, s)
    | (.ok .stale, tree) => (.ok { Totals.zero with stale := true }, tree, s)
    | (.ok (.applied outcome), tree) =>
      let totals := Totals.zero.add outcome
      let (checked, tree, s) :=
        if checkAlways || tree.arena.isExpanded id then checkCollapsed fs lister id tree s
        else (0, tree, s)
      let c := Cascade.run fs lister tree.size
        ⟨outcome.cascade, totals.addChecked checked, tree, s⟩
      (.ok c.totals, c.tree, c.world)

/-- Refreshes a node; with `recursive` also its retained expanded descendants, whose failures are
only counted. -/
def refresh (fs : FileSystem σ) (id : NodeId) (recursive : Bool)
    (tree : TreeView) (s : σ) : Except Failure Totals × TreeView × σ :=
  refreshWith fs id recursive false tree s

def setExpanded (tree : TreeView) (id : NodeId) (expanded : Bool) : TreeView :=
  tree.modify id (fun node => { node with expanded := expanded })

/-- Expands a node and refreshes what it shows. When that fails the node collapses again, unless
it is the root. -/
def expand (fs : FileSystem σ) (id : NodeId) (tree : TreeView) (s : σ) :
    Except Failure Totals × TreeView × σ :=
  if tree.holds id then
    match refresh fs id true (tree.setExpanded id true) s with
    | (.ok totals, tree, s) => (.ok totals, tree, s)
    | (.error e, tree, s) =>
      (.error e, if tree.root = some id then tree else tree.setExpanded id false, s)
  else (.error (.detached id), tree, s)

/-- Collapses a node; its children stay materialized. The root cannot be collapsed. -/
def collapse (tree : TreeView) (id : NodeId) : Except Failure Unit × TreeView :=
  if tree.root = some id then (.ok (), tree)
  else if tree.holds id then (.ok (), tree.setExpanded id false)
  else (.error (.detached id), tree)

/-- Replaces the filter and refreshes everything shown. The filter in force stays as it is without a
refresh. -/
def useFilter (fs : FileSystem σ) (filter : NameFilter) (tree : TreeView) (s : σ) :
    Except Failure Totals × TreeView × σ :=
  if filter = tree.filter then (.ok .zero, tree, s)
  else
    let tree := { tree with filter := filter }
    match tree.root with
    | some root => refresh fs root true tree s
    | none => (.ok .zero, tree, s)

end TreeView

end LazyTree
