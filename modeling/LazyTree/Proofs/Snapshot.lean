import LazyTree.TreeView.Snapshot
import LazyTree.Proofs.Walk

/-!
Snapshots of linked trees. The depth that a snapshot goes to cuts nothing off, and two snapshots are
compared up to the ids of nodes that were made after a given moment.
-/
namespace LazyTree

namespace Branch

mutual

def anonymous (bound : NodeId) : Branch → Branch
  | .mk id path label kind expanded expandable children =>
    .mk (if id < bound then id else 0) path label kind expanded expandable
      (anonymousAll bound children)

def anonymousAll (bound : NodeId) : List Branch → List Branch
  | [] => []
  | branch :: branches => anonymous bound branch :: anonymousAll bound branches

end

theorem anonymousAll_eq_map (bound : NodeId) (branches : List Branch) :
    anonymousAll bound branches = branches.map (anonymous bound) := by
  induction branches with
  | nil => rfl
  | cons branch branches ih => rw [anonymousAll, List.map_cons, ih]

end Branch

/-- The snapshot with the ids from `bound` on wiped out; with bound 0 no id is left. -/
def Snapshot.anonymous (bound : NodeId) (snapshot : Snapshot) : Snapshot :=
  ⟨snapshot.root.map (Branch.anonymous bound), snapshot.selected⟩

namespace TreeView
variable {tree : TreeView} {id : NodeId} {depth : Nat}

theorem branch?_succ (h : tree.arena.Linked) {above : List NodeId}
    (habove : tree.arena.Passed above id) (hdepth : tree.size ≤ depth + above.length) :
    tree.branch? (depth + 1) id = tree.branch? depth id := by
  induction depth generalizing above id with
  | zero =>
    cases hlive : tree.arena.get? id with
    | none => simp only [branch?, node?, hlive]
    | some node =>
      rw [Nat.zero_add] at hdepth
      exact absurd (habove.length_lt hlive) (Nat.not_lt.mpr hdepth)
  | succ depth ih =>
    cases hlive : tree.arena.get? id with
    | none => simp only [branch?, node?, hlive]
    | some node =>
      have hbelow : node.children.filterMap (tree.branch? (depth + 1)) =
          node.children.filterMap (tree.branch? depth) := by
        refine List.filterMap_congr fun child hc => ?_
        have hlt : id < child := h.lower (by rwa [Arena.childrenOf_of_live hlive])
        refine ih (habove.cons hlive hlt) ?_
        rw [List.length_cons, ← Nat.add_assoc, Nat.add_right_comm]
        exact hdepth
      rw [branch?, node?, hlive]
      simp only [hbelow]
      rw [branch?, node?, hlive]

theorem branch?_of_size_le (h : tree.arena.Linked) (hdepth : tree.size ≤ depth) (id : NodeId) :
    tree.branch? depth id = tree.branch? tree.size id := by
  induction hdepth with
  | refl => rfl
  | @step depth hle ih =>
    rw [← ih]
    exact branch?_succ h (.nil _ id) hle

end TreeView

end LazyTree
