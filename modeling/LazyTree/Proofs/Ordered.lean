import LazyTree.Proofs.Names
import LazyTree.Proofs.SortedMerge
import LazyTree.Proofs.Tickets

/-!
Sorted siblings and what they are good for. Over a filesystem that names handles after their paths
the children of every node stay in sibling order, and then a merge keeps exactly the children that
are still listed, each with all that hangs below it.
-/
namespace LazyTree
variable {σ : Type} {fs : FileSystem σ}

/-- Whether a path may stand before another among siblings. -/
def PathsInOrder (p q : String) : Prop := siblingOrder (.real p) (.real q) ≠ .gt

theorem siblingOrder_of_paths {a b : Handle} (ha : a.Named) (hb : b.Named) :
    siblingOrder a b = siblingOrder (.real a.path) (.real b.path) := by
  have hreal (path : String) : (Handle.real path).Named := rfl
  rw [siblingOrder_of_named ha hb, siblingOrder_of_named (hreal _) (hreal _)]
  have hnameA : a.name = Path.lastName a.path := ha
  have hnameB : b.name = Path.lastName b.path := hb
  simp only [nameThenPath, compareLex, compareOn, hnameA, hnameB, Handle.real, Handle.ofPath]

theorem pairwise_paths_iff {handles : List Handle} (hnamed : ∀ h ∈ handles, h.Named) :
    (handles.map Handle.path).Pairwise PathsInOrder ↔
      handles.Pairwise fun a b => siblingOrder a b ≠ .gt := by
  rw [List.pairwise_map]
  refine List.Pairwise.iff_of_mem fun ha hb => ?_
  rw [PathsInOrder, ← siblingOrder_of_paths (hnamed _ ha) (hnamed _ hb)]

namespace TreeView
variable {tree tree' last : TreeView} {id target child : NodeId} {node : Node} {move : Move}
variable {moves : List Move} {listing : Listing} {children : List NodeId} {Q : Handle → Prop}

/-- A well-formed tree whose handles are named after their paths and whose siblings are sorted. -/
structure Orderly (tree : TreeView) : Prop where
  wellFormed : tree.WellFormed
  handles : tree.HandlesFit Handle.Named
  sorted : ∀ id, (tree.childPaths id).Pairwise PathsInOrder

theorem Orderly.named (h : tree.Orderly) (id : NodeId) :
    ∀ handle ∈ tree.childHandles id, handle.Named := by
  intro handle hmem
  obtain ⟨child, _, hchild⟩ := List.mem_filterMap.mp hmem
  obtain ⟨node, hlive, rfl⟩ := Option.map_eq_some_iff.mp hchild
  exact (h.handles _ _ hlive).2

theorem Orderly.pairwise (h : tree.Orderly) (id : NodeId) :
    (tree.childHandles id).Pairwise fun a b => siblingOrder a b ≠ .gt := by
  rw [← pairwise_paths_iff (h.named id), map_path_childHandles h.handles]
  exact h.sorted id

theorem Applied.orderly (ha : Applied tree tree' target node listing children) (h : tree.Orderly)
    (hlive : tree.arena.get? target = some node)
    (hresolved : ∀ dir, listing.resolved = some dir →
      dir.path = node.handle.path ∧ dir.Named)
    (hentries : ∀ listed ∈ listing.entries, listed.Named)
    (hsorted : listing.entries.Pairwise fun a b => siblingOrder a b ≠ .gt) : tree'.Orderly := by
  have hw := ha.wellFormed h.wellFormed hlive
  have hfit := ha.handlesFit h.handles hlive hresolved hentries
  refine ⟨hw, hfit, fun id => ?_⟩
  have hstays (hsame : tree'.children id = tree.children id) :
      (tree'.childPaths id).Pairwise PathsInOrder := by
    rw [childPaths_eq h.wellFormed hw (ha.evolves hlive) hsame]
    exact h.sorted id
  cases hnow : tree'.arena.get? id with
  | none =>
    rw [childPaths_of_empty (Arena.childrenOf_of_dead hnow)]
    exact .nil
  | some now =>
    have hchildren : tree'.children id = now.children := Arena.childrenOf_of_live hnow
    cases ha.relisted.origin hnow with
    | self eq =>
      rw [eq, ← map_path_childHandles hfit, ha.childHandles, pairwise_paths_iff hentries]
      exact hsorted
    | added _ _ _ =>
      rw [childPaths_of_empty hchildren]
      exact .nil
    | kept _ live _ _ => exact hstays (hchildren.trans (Arena.childrenOf_of_live live).symm)
    | untouched _ _ live => exact hstays (hchildren.trans (Arena.childrenOf_of_live live).symm)

theorem Orderly.act (h : tree.Orderly) (hfs : fs.Regular) (allowed : tree.Allows fs move) :
    (tree.act move).Orderly := by
  have hw := h.wellFormed.act allowed
  have hfit := h.handles.act h.wellFormed hfs.gives allowed
  rcases act_cases h.wellFormed allowed with
    ⟨_, _, _, _, _, _, _, _, hlive, happlied, hpath, hfetch⟩ | hsame | hnew
  · obtain ⟨hresolved, hentries⟩ := hfs.gives.fetched hfetch
    exact happlied.orderly h hlive (hpath ▸ hresolved) hentries (hfs.gives.sorted hfetch)
  · refine ⟨hw, hfit, fun id => ?_⟩
    have hchildren : (tree.act move).children id = tree.children id := by
      have hmap := congrArg (Option.map fun face => face.2.2) (hsame id)
      rw [Option.map_map, Option.map_map] at hmap
      rw [children, children, Arena.childrenOf_eq_getD, Arena.childrenOf_eq_getD]
      exact congrArg (·.getD []) hmap
    rw [childPaths_eq h.wellFormed hw (evolves_act h.wellFormed move) hchildren]
    exact h.sorted id
  · refine ⟨hw, hfit, fun id => ?_⟩
    have hnone : (tree.act move).children id = [] := by
      cases hnow : (tree.act move).arena.get? id with
      | none => exact Arena.childrenOf_of_dead hnow
      | some node =>
        obtain ⟨top, hface⟩ := hnew id node hnow
        exact (Arena.childrenOf_of_live hnow).trans (congrArg (fun face => face.2.2) hface)
    rw [childPaths_of_empty hnone]
    exact .nil

theorem Run.orderly (h : Run fs tree moves last) (hfs : fs.Regular) (ho : tree.Orderly) :
    last.Orderly := by
  induction h with
  | nil => exact ho
  | cons allowed _ ih => exact ih (ho.act hfs allowed)

end TreeView

end LazyTree
