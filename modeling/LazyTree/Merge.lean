import LazyTree.Arena
import LazyTree.SiblingOrder

/-!
Bringing a node's children in line with a fresh listing. Children and listing are walked together
in sibling order: a child that is still listed stays with all that hangs below it, a new directory
gets a node at its place, and every other child is dropped.
-/
namespace LazyTree

structure MergeOutcome where
  inserted : Nat
  retained : Nat
  /-- Dropped children; their subtrees go with them uncounted. -/
  removed : Nat
  /-- Retained expanded children that a recursive refresh goes on to. -/
  cascade : List NodeId
deriving DecidableEq, Repr, Inhabited

def MergeOutcome.changesNothing (outcome : MergeOutcome) : Bool :=
  outcome.inserted = 0 && outcome.removed = 0

/-- A child list as merged so far, from its end. -/
structure Merged where
  arena : Arena
  children : List NodeId
  outcome : MergeOutcome

namespace Merged

def done (arena : Arena) : Merged := ⟨arena, [], ⟨0, 0, 0, []⟩⟩

def inserting (merged : Merged) (id : NodeId) : Merged :=
  { merged with
    children := id :: merged.children
    outcome := { merged.outcome with inserted := merged.outcome.inserted + 1 } }

def retaining (merged : Merged) (id : NodeId) (descend : Bool) : Merged :=
  { merged with
    children := id :: merged.children
    outcome :=
      { merged.outcome with
        retained := merged.outcome.retained + 1
        cascade := if descend then id :: merged.outcome.cascade else merged.outcome.cascade } }

def removing (merged : Merged) : Merged :=
  { merged with outcome := { merged.outcome with removed := merged.outcome.removed + 1 } }

end Merged

namespace Arena

/-- Where a listed directory stands relative to a child. A child that is gone comes first. -/
def orderToChild (arena : Arena) (listed : Handle) (child : NodeId) : Ordering :=
  match arena.get? child with
  | some node => siblingOrder listed node.handle
  | none => .gt

def mergeChildren (parent : NodeId) (recursive : Bool) (arena : Arena) :
    List NodeId → List Handle → Merged
  | [], [] => .done arena
  | [], listed :: incoming =>
    let (arena', id) := arena.insert listed (some parent)
    (mergeChildren parent recursive arena' [] incoming).inserting id
  | child :: children, [] =>
    (mergeChildren parent recursive (arena.detach child).1 children []).removing
  | child :: children, listed :: incoming =>
    match arena.orderToChild listed child with
    | .lt =>
      let (arena', id) := arena.insert listed (some parent)
      (mergeChildren parent recursive arena' (child :: children) incoming).inserting id
    | .eq =>
      let arena' := arena.modify child (fun node => { node with handle := listed })
      (mergeChildren parent recursive arena' children incoming).retaining child
        (recursive && arena.isExpanded child)
    | .gt =>
      (mergeChildren parent recursive (arena.detach child).1 children
        (listed :: incoming)).removing
termination_by children incoming => children.length + incoming.length

/-- Replaces the children of `parent` by a sorted listing. A node left without children is collapsed
unless `keepOpen`. -/
def mergeListing (arena : Arena) (parent : NodeId) (incoming : List Handle)
    (recursive keepOpen : Bool) : Except Failure MergeOutcome × Arena :=
  match arena.get? parent with
  | none => (.error (.detached parent), arena)
  | some node =>
    let taken := arena.put parent (some { node with children := [] })
    let merged := mergeChildren parent recursive taken node.children incoming
    match merged.arena.get? parent with
    | none => (.error (.detached parent), merged.arena)
    | some node' =>
      (.ok merged.outcome,
        merged.arena.put parent (some { node' with
          children := merged.children
          expandable := !merged.children.isEmpty
          expanded := node'.expanded && (!merged.children.isEmpty || keepOpen) }))

end Arena

end LazyTree
