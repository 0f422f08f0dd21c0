import LazyTree.Proofs.Detach
import LazyTree.TreeView.Changes

/-!
Changes that are not seen: by a merge of children, which may as well be made before the change as
after it, and by the walk to the node of a changed directory.
-/
namespace LazyTree

/-- What a merge reads of the nodes that it passes. -/
def Node.passed (node : Node) : Handle × List NodeId × Bool :=
  (node.handle, node.children, node.expanded)

def Merged.onArena (merged : Merged) (change : Arena → Arena) : Merged :=
  { merged with arena := change merged.arena }

namespace Arena
variable {bound id : NodeId} {change : Arena → Arena} {arena : Arena}

/-- A merge does not see the change, once the ids below `bound` have been given out. -/
structure Unseen (bound : NodeId) (change : Arena → Arena) : Prop where
  nextId : ∀ arena, (change arena).nextId = arena.nextId
  passed : ∀ arena id, ((change arena).get? id).map Node.passed = (arena.get? id).map Node.passed
  erased : ∀ arena id, (change arena).erase id = change (arena.erase id)
  inserted : ∀ arena listed parent, bound ≤ arena.nextId →
    ((change arena).insert listed parent).1 = change (arena.insert listed parent).1
  rehandled : ∀ arena id listed,
    (change arena).modify id (fun node => { node with handle := listed }) =
      change (arena.modify id fun node => { node with handle := listed })

namespace Unseen

theorem children_eq (h : Unseen bound change) (arena : Arena) (id : NodeId) :
    ((change arena).get? id).map Node.children = (arena.get? id).map Node.children := by
  have hpassed := congrArg (Option.map fun seen => seen.2.1) (h.passed arena id)
  simpa only [Option.map_map, Function.comp_def, Node.passed] using hpassed

theorem isExpanded_eq (h : Unseen bound change) (arena : Arena) (id : NodeId) :
    (change arena).isExpanded id = arena.isExpanded id := by
  have hpassed := congrArg (Option.map fun seen => seen.2.2) (h.passed arena id)
  simp only [Option.map_map, Function.comp_def, Node.passed] at hpassed
  exact isExpanded_congr hpassed

theorem orderToChild_eq (h : Unseen bound change) (arena : Arena) (listed : Handle)
    (child : NodeId) :
    (change arena).orderToChild listed child = arena.orderToChild listed child := by
  have hpassed := congrArg (Option.map Prod.fst) (h.passed arena child)
  simp only [Option.map_map, Function.comp_def, Node.passed] at hpassed
  unfold orderToChild
  cases hlive : arena.get? child with
  | none =>
    rw [dead_of_map_get?_eq hpassed hlive]
  | some node =>
    obtain ⟨now, hnow, hhandle⟩ := live_of_map_get?_eq hpassed hlive
    rw [hnow]
    exact congrArg (siblingOrder listed) hhandle

theorem detachAll_eq (h : Unseen bound change) (arena : Arena) (stack : List NodeId) :
    ((change arena).detachAll stack).1 = change (arena.detachAll stack).1 := by
  fun_induction detachAll arena stack with
  | case1 arena => rw [detachAll]
  | case2 arena id stack hdead ih =>
    have hgone := dead_of_map_get?_eq (h.children_eq arena id) hdead
    rw [detachAll]
    split
    · exact ih
    · rename_i hlive
      exact absurd (hgone.symm.trans hlive) (by simp)
  | case3 arena id stack node hlive rest ih =>
    obtain ⟨now, hnow, hchildren⟩ := live_of_map_get?_eq (h.children_eq arena id) hlive
    rw [detachAll]
    split
    · rename_i hdead
      exact absurd (hdead.symm.trans hnow) (by simp)
    · rename_i now' hnow'
      obtain rfl := Option.some.inj (hnow.symm.trans hnow')
      rw [hchildren, h.erased]
      exact ih

theorem detach_eq (h : Unseen bound change) (arena : Arena) (id : NodeId) :
    ((change arena).detach id).1 = change (arena.detach id).1 := h.detachAll_eq arena [id]

theorem insert_eq (h : Unseen bound change) (hbound : bound ≤ arena.nextId) (listed : Handle)
    (parent : Option NodeId) :
    (change arena).insert listed parent =
      (change (arena.insert listed parent).1, (arena.insert listed parent).2) := by
  refine Prod.ext (h.inserted arena listed parent hbound) ?_
  rw [insert_id, insert_id, h.nextId]

theorem le_nextId_insert (hbound : bound ≤ arena.nextId) (listed : Handle)
    (parent : Option NodeId) : bound ≤ (arena.insert listed parent).1.nextId := by
  rw [nextId_insert]
  exact Nat.le_succ_of_le hbound

theorem mergeChildren_eq (h : Unseen bound change) (parent : NodeId) (recursive : Bool)
    (hbound : bound ≤ arena.nextId) (children : List NodeId) (incoming : List Handle) :
    mergeChildren parent recursive (change arena) children incoming =
      (mergeChildren parent recursive arena children incoming).onArena change := by
  fun_induction mergeChildren parent recursive arena children incoming with
  | case1 arena =>
    rw [mergeChildren]
    rfl
  | case2 arena listed incoming arena' id hinsert ih =>
    have hgrown := le_nextId_insert hbound listed (some parent)
    rw [hinsert] at hgrown
    rw [mergeChildren]
    simp only [h.insert_eq hbound, hinsert, ih hgrown]
    rfl
  | case3 arena child children ih =>
    rw [mergeChildren, h.detach_eq, ih ((nextId_detach arena child).symm ▸ hbound)]
    rfl
  | case4 arena child children listed incoming horder arena' id hinsert ih =>
    have hgrown := le_nextId_insert hbound listed (some parent)
    rw [hinsert] at hgrown
    rw [mergeChildren]
    simp only [h.orderToChild_eq, horder, h.insert_eq hbound, hinsert, ih hgrown]
    rfl
  | case5 arena child children listed incoming horder arena' ih =>
    have hkept : bound ≤ arena'.nextId := (nextId_modify arena child _).symm ▸ hbound
    rw [mergeChildren]
    simp only [h.orderToChild_eq, horder, h.isExpanded_eq, h.rehandled]
    rw [ih hkept]
    rfl
  | case6 arena child children listed incoming horder ih =>
    rw [mergeChildren]
    simp only [h.orderToChild_eq, horder, h.detach_eq]
    rw [ih ((nextId_detach arena child).symm ▸ hbound)]
    rfl

end Unseen

end Arena

namespace TreeView
variable {tree tree' : TreeView}

theorem wayTo?_congr (hpath : tree'.pathOf? = tree.pathOf?)
    (hchildren : tree'.children = tree.children) (parent : NodeId) (target : String) :
    tree'.wayTo? parent target = tree.wayTo? parent target := by
  rw [wayTo?, wayTo?, hpath, hchildren]

theorem ownerFrom?_congr (hpath : tree'.pathOf? = tree.pathOf?)
    (hchildren : tree'.children = tree.children) (changed : String) (depth : Nat) (id : NodeId) :
    tree'.ownerFrom? changed depth id = tree.ownerFrom? changed depth id := by
  induction depth generalizing id with
  | zero => rfl
  | succ depth ih =>
    have hbelow : ownerFrom? tree' changed depth = ownerFrom? tree changed depth := funext ih
    simp only [ownerFrom?, hpath, wayTo?_congr hpath hchildren, hbelow]

/-- The walk sees the root, the paths and the children of nodes, and how many nodes there are. -/
theorem owner?_congr (hroot : tree'.root = tree.root) (hpath : tree'.pathOf? = tree.pathOf?)
    (hchildren : tree'.children = tree.children) (hsize : tree'.size = tree.size)
    (changed : String) : tree'.owner? changed = tree.owner? changed := by
  have hwalk : tree'.ownerFrom? (Path.normalize changed) tree.size =
      tree.ownerFrom? (Path.normalize changed) tree.size :=
    funext (ownerFrom?_congr hpath hchildren _ _)
  rw [owner?, owner?, hroot, hsize, hwalk]

end TreeView

end LazyTree
