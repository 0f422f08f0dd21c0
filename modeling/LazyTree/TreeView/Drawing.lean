import LazyTree.TreeView

/-!
The rows of a tree in display order, and their drawing with connecting lines.
-/
namespace LazyTree

structure Row where
  id : NodeId
  label : String
  depth : Nat
  isExpanded : Bool
  isLast : Bool
  isSelected : Bool
deriving DecidableEq, Repr, Inhabited

/-- Each item with whether it is the last. -/
def markLast {α : Type} : List α → List (α × Bool)
  | [] => []
  | [a] => [(a, true)]
  | a :: b :: rest => (a, false) :: markLast (b :: rest)

namespace TreeView

/-- Rows of a node at `depth` and of what is shown below it, `levels` deep at most. -/
def rowsFrom (tree : TreeView) (inFull : Bool) :
    Nat → (depth : Nat) → NodeId → (isLast : Bool) → List Row
  | 0, _, _, _ => []
  | levels + 1, depth, id, isLast =>
    match tree.node? id with
    | none => []
    | some node =>
      let below :=
        if node.expanded || inFull then
          (markLast node.children).flatMap (fun child =>
            rowsFrom tree inFull levels (depth + 1) child.1 child.2)
        else []
      ⟨id, node.label, depth, node.expanded, isLast, tree.selected = some id⟩ :: below

/-- Rows in display order. What lies below a collapsed node is left out unless `inFull`. -/
def rows (tree : TreeView) (inFull : Bool) : List Row :=
  match tree.root with
  | some root => tree.rowsFrom inFull tree.size 0 root true
  | none => []

end TreeView

/-- Whether the nearest row of a depth, among rows nearest first, is a last sibling; a row less deep
ends the search. -/
def endsAtDepth (depth : Nat) : List Row → Bool
  | [] => false
  | row :: above =>
    if row.depth = depth then row.isLast
    else if row.depth < depth then false
    else endsAtDepth depth above

/-- One level of the lines in front of a row: a rail while siblings of the ancestor there follow. -/
def railCell (above : List Row) (depth : Nat) : String :=
  if endsAtDepth depth above then "   " else "│  "

def connector (isLast : Bool) : String := if isLast then "└──" else "├──"

/-- The lines in front of a row, given the rows above it, nearest first. -/
def rowLead (above : List Row) (row : Row) : String :=
  if row.depth = 0 then ""
  else
    String.join ((List.range' 1 (row.depth - 1)).map (railCell above)) ++
      connector row.isLast ++ " "

def rowText (above : List Row) (row : Row) : String :=
  rowLead above row ++ row.label ++ (if row.isSelected then " *" else "") ++ "\n"

/-- The lines of rows that come below the rows `above`. -/
def drawRows (above : List Row) : List Row → String
  | [] => ""
  | row :: rows => rowText above row ++ drawRows (row :: above) rows

/-- The rows shown, one a line, the selected one marked. -/
def TreeView.draw (tree : TreeView) : String := drawRows [] (tree.rows false)

end LazyTree
