import LazyTree.TreeView
import LazyTree.Text.Quoted

/-!
A copy of the materialized tree that stands by itself, and its JSON text.
-/
namespace LazyTree

inductive Branch where
  | mk (id : NodeId) (path label : String) (kind : HandleKind) (expanded expandable : Bool)
      (children : List Branch)
deriving Repr, Inhabited

structure Snapshot where
  root : Option Branch
  selected : Option String
deriving Repr, Inhabited

namespace TreeView

/-- The node and what hangs below it, `depth` levels at most. -/
def branch? (tree : TreeView) : Nat → NodeId → Option Branch
  | 0, _ => none
  | depth + 1, id =>
    match tree.node? id with
    | none => none
    | some node =>
      some (.mk id node.path node.label node.handle.kind node.expanded node.expandable
        (node.children.filterMap (branch? tree depth)))

/-- No node lies deeper than there are nodes. -/
def snapshot (tree : TreeView) : Snapshot :=
  ⟨tree.root.bind (tree.branch? tree.size), tree.selectedPath?⟩

end TreeView

def indented (level : Nat) (text : String) : String :=
  String.ofList (List.replicate (2 * level) ' ') ++ text

def jsonBool (b : Bool) : String := if b then "true" else "false"

def jsonMember (level : Nat) (key value : String) : String :=
  indented level (Text.json key ++ ": " ++ value)

def jsonObject (level : Nat) (members : List String) : String :=
  "\x7b\n" ++ String.intercalate ",\n" members ++ "\n" ++ indented level "\x7d"

namespace Branch

mutual

/-- The node as a JSON object that opens on a line of the given level. A node without children has
no member for them. -/
def json (level : Nat) : Branch → String
  | .mk id path label kind expanded expandable children =>
    let member := jsonMember (level + 1)
    let fixed :=
      [ member "id" (toString id), member "path" (Text.json path), member "label" (Text.json label),
        member "kind" (Text.json kind.word), member "expanded" (jsonBool expanded),
        member "has_children" (jsonBool expandable) ]
    let below :=
      if children.isEmpty then []
      else
        [ member "children"
            ("[\n" ++ String.intercalate ",\n" (jsonItems (level + 2) children) ++ "\n" ++
              indented (level + 1) "]") ]
    jsonObject level (fixed ++ below)

def jsonItems (level : Nat) : List Branch → List String
  | [] => []
  | node :: nodes => indented level (json level node) :: jsonItems level nodes

end

end Branch

def Snapshot.json (snapshot : Snapshot) : String :=
  let root :=
    match snapshot.root with
    | some node => node.json 1
    | none => "null"
  let selected :=
    match snapshot.selected with
    | some path => Text.json path
    | none => "null"
  jsonObject 0 [jsonMember 1 "root" root, jsonMember 1 "selected" selected]

end LazyTree
