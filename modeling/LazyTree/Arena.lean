import LazyTree.Entry
import LazyTree.Failure

/-!
The owner of all live nodes of a tree. A node is live while its slot is filled; ids count up from 1
and are never given out twice, also not after `clear`.
-/
namespace LazyTree

structure Node where
  /-- The path the node was made for; its handle may later be replaced. -/
  path : String
  handle : Handle
  parent : Option NodeId
  children : List NodeId
  expanded : Bool
  /-- From the last listing, or for a collapsed node from the last check for sub-directories. -/
  expandable : Bool
  /-- How many refreshes of the node have been issued. -/
  generation : Nat
deriving DecidableEq, Repr, Inhabited

def Node.fresh (handle : Handle) (parent : Option NodeId) : Node :=
  ⟨handle.path, handle, parent, [], false, false, 0⟩

def Node.label (node : Node) : String := node.handle.shownName

/-- Slot `i` belongs to node `i + 1`. -/
structure Arena where
  slots : Array (Option Node)
deriving Repr, Inhabited

namespace Arena

def empty : Arena := ⟨#[]⟩

def get? (arena : Arena) : NodeId → Option Node
  | 0 => none
  | i + 1 => (arena.slots[i]?).join

def contains (arena : Arena) (id : NodeId) : Bool := (arena.get? id).isSome

def nextId (arena : Arena) : NodeId := arena.slots.size + 1

/-- A new node; its parent does not list it yet. -/
def insert (arena : Arena) (handle : Handle) (parent : Option NodeId) : Arena × NodeId :=
  (⟨arena.slots.push (some (Node.fresh handle parent))⟩, arena.nextId)

def put (arena : Arena) (id : NodeId) (slot : Option Node) : Arena :=
  match id with
  | 0 => arena
  | i + 1 => ⟨arena.slots.setIfInBounds i slot⟩

def modify (arena : Arena) (id : NodeId) (f : Node → Node) : Arena :=
  match arena.get? id with
  | some node => arena.put id (some (f node))
  | none => arena

def erase (arena : Arena) (id : NodeId) : Arena := arena.put id none

def size (arena : Arena) : Nat := arena.slots.countP Option.isSome

def isEmpty (arena : Arena) : Bool := arena.size = 0

def isExpanded (arena : Arena) (id : NodeId) : Bool :=
  match arena.get? id with
  | some node => node.expanded
  | none => false

def childrenOf (arena : Arena) (id : NodeId) : List NodeId :=
  match arena.get? id with
  | some node => node.children
  | none => []

/-- The live nodes with their ids, in the order they were made. -/
def liveNodes (arena : Arena) : List (NodeId × Node) :=
  (List.range arena.slots.size).filterMap
    (fun i => (arena.get? (i + 1)).map (fun node => (i + 1, node)))

/-- Drops every node; the count of ids goes on. -/
def clear (arena : Arena) : Arena := ⟨arena.slots.map (fun _ => none)⟩

theorem slots_erase {arena : Arena} {i : Nat} (hi : i < arena.slots.size) :
    (arena.erase (i + 1)).slots = arena.slots.set i none hi := by
  simp only [erase, put, Array.setIfInBounds, dif_pos hi]

theorem size_erase_lt {arena : Arena} {id : NodeId} {node : Node} (h : arena.get? id = some node) :
    (arena.erase id).size < arena.size := by
  cases id with
  | zero => exact absurd h (by simp only [get?, reduceCtorEq, not_false_eq_true])
  | succ i =>
    obtain ⟨hi, hslot⟩ := Array.getElem?_eq_some_iff.mp (Option.join_eq_some_iff.mp h)
    have hlive : 0 < arena.slots.countP Option.isSome :=
      Array.countP_pos_iff.mpr ⟨some node, hslot ▸ Array.getElem_mem hi, rfl⟩
    have hcount : (arena.erase (i + 1)).size = arena.size - 1 := by
      rw [size, slots_erase hi, Array.countP_set hi, hslot]
      rfl
    rw [hcount]
    exact Nat.sub_lt hlive Nat.one_pos

/-- Drops the nodes on a stack and everything below them, and counts the dropped nodes. A node met
again is already gone, so shared and circular child lists do no harm. -/
def detachAll (arena : Arena) : List NodeId → Arena × Nat
  | [] => (arena, 0)
  | id :: stack =>
    match h : arena.get? id with
    | none => detachAll arena stack
    | some node =>
      let rest := detachAll (arena.erase id) (node.children ++ stack)
      (rest.1, rest.2 + 1)
termination_by stack => (arena.size, stack.length)
decreasing_by
  · exact Prod.Lex.right _ (Nat.lt_succ_self _)
  · exact Prod.Lex.left _ _ (size_erase_lt h)

/-- Drops a node and everything below it. The parent's child list is left as it is. -/
def detach (arena : Arena) (id : NodeId) : Arena × Nat := arena.detachAll [id]

end Arena

end LazyTree
