import LazyTree.Proofs.Repetition
import LazyTree.Proofs.Unseen

/-!
What a failed refresh leaves behind. It counts at its node as one more refresh that was issued, and
whatever is refreshed afterwards becomes of the tree what it would have become without that count.
-/
namespace LazyTree

namespace Arena
variable {arena : Arena} {n id parent : NodeId} {node : Node}

/-- An arena in which one more refresh of a node was issued. -/
def bumped (arena : Arena) (n : NodeId) : Arena :=
  arena.modify n fun node => { node with generation := node.generation + 1 }

theorem map_get?_bumped {β : Type} {view : Node → β}
    (hview : ∀ (node : Node) (count : Nat), view { node with generation := count } = view node)
    (arena : Arena) (n id : NodeId) :
    ((arena.bumped n).get? id).map view = (arena.get? id).map view :=
  map_get?_modify (fun node => hview node _) id

theorem modify_bumped {f : Node → Node}
    (hf : ∀ node, f { node with generation := node.generation + 1 } =
      { f node with generation := (f node).generation + 1 }) (arena : Arena) (n id : NodeId) :
    (arena.bumped n).modify id f = (arena.modify id f).bumped n :=
  modify_comm (fun node => (hf node).symm) arena n id

theorem unseen_bumped (n : NodeId) : Unseen (n + 1) (bumped · n) where
  nextId arena := nextId_modify arena n _
  passed arena id := map_get?_bumped (fun _ _ => by rfl) arena n id
  erased arena id := erase_modify arena n id _
  inserted arena listed parent hbound := insert_modify (Nat.lt_of_succ_le hbound) _ listed parent
  rehandled arena id listed := modify_bumped (fun _ => by rfl) arena n id

theorem mergeListing_of_live (hlive : arena.get? parent = some node) (incoming : List Handle)
    (recursive keepOpen : Bool) :
    arena.mergeListing parent incoming recursive keepOpen =
      let merged := mergeChildren parent recursive (arena.emptied parent) node.children incoming
      if merged.arena.contains parent then (.ok merged.outcome, merged.rejoined parent keepOpen)
      else (.error (.detached parent), merged.arena) := by
  have htaken : arena.put parent (some { node with children := [] }) = arena.emptied parent :=
    put_eq_modify hlive fun node => { node with children := [] }
  simp only [mergeListing, hlive, htaken]
  generalize mergeChildren parent recursive _ node.children incoming = merged
  cases hstill : merged.arena.get? parent with
  | none => simp only [contains, hstill, Option.isSome_none, Bool.false_eq_true, if_false]
  | some now =>
    have hjoined := put_eq_modify hstill fun now => now.relisted merged.children keepOpen
    simp only [contains, hstill, Option.isSome_some, if_true, Merged.rejoined, ← hjoined]
    rfl

theorem mergeListing_bumped (hn : n < arena.nextId) (parent : NodeId) (incoming : List Handle)
    (recursive keepOpen : Bool) :
    (arena.bumped n).mergeListing parent incoming recursive keepOpen =
      ((arena.mergeListing parent incoming recursive keepOpen).1,
        (arena.mergeListing parent incoming recursive keepOpen).2.bumped n) := by
  have hpassed := (unseen_bumped n).children_eq arena parent
  cases hlive : arena.get? parent with
  | none =>
    simp only [mergeListing, hlive, dead_of_map_get?_eq hpassed hlive]
  | some node =>
    obtain ⟨now, hnow, hchildren⟩ := live_of_map_get?_eq hpassed hlive
    have hemptied : (arena.bumped n).emptied parent = (arena.emptied parent).bumped n :=
      modify_bumped (fun _ => by rfl) arena n parent
    have hbound : n + 1 ≤ (arena.emptied parent).nextId := by
      rw [emptied, nextId_modify]
      exact hn
    rw [mergeListing_of_live hlive, mergeListing_of_live hnow, hchildren, hemptied,
      (unseen_bumped n).mergeChildren_eq parent recursive hbound]
    generalize mergeChildren parent recursive _ node.children incoming = merged
    have hcontains : (merged.arena.bumped n).contains parent = merged.arena.contains parent :=
      contains_congr ((unseen_bumped n).children_eq merged.arena parent)
    have hrejoined : (merged.onArena (bumped · n)).rejoined parent keepOpen =
        (merged.rejoined parent keepOpen).bumped n :=
      modify_bumped (fun _ => by rfl) merged.arena n parent
    have hover : (merged.onArena (bumped · n)).arena = merged.arena.bumped n := rfl
    simp only [hrejoined, hover, hcontains]
    split <;> rfl

end Arena

namespace TreeView
variable {σ : Type} {tree : TreeView} {n id : NodeId} {node : Node}

theorem pathOf?_bumped (tree : TreeView) (n : NodeId) : (tree.bumped n).pathOf? = tree.pathOf? :=
  funext (map_get?_bumped (fun _ _ => by rfl) tree n)

theorem children_bumped (tree : TreeView) (n : NodeId) : (tree.bumped n).children = tree.children :=
  funext (Arena.childrenOf_modify fun _ => by rfl)

theorem size_bumped (tree : TreeView) (n : NodeId) : (tree.bumped n).size = tree.size :=
  Arena.size_modify tree.arena n _

theorem owner?_bumped (tree : TreeView) (n : NodeId) (changed : String) :
    (tree.bumped n).owner? changed = tree.owner? changed := by
  have hroot : (tree.bumped n).root = tree.root := rfl
  exact owner?_congr hroot (pathOf?_bumped tree n) (children_bumped tree n) (size_bumped tree n)
    changed

theorem holds_bumped (tree : TreeView) (n id : NodeId) :
    (tree.bumped n).holds id = tree.holds id :=
  Arena.contains_congr (congrFun (pathOf?_bumped tree n) id)

theorem modify_bumped {f : Node → Node}
    (hf : ∀ node, f { node with generation := node.generation + 1 } =
      { f node with generation := (f node).generation + 1 }) (tree : TreeView) (n id : NodeId) :
    (tree.bumped n).modify id f = (tree.modify id f).bumped n :=
  congrArg (fun arena => { tree with arena := arena }) (Arena.modify_bumped hf tree.arena n id)

theorem bumped_comm (tree : TreeView) (n id : NodeId) :
    (tree.bumped n).bumped id = (tree.bumped id).bumped n :=
  modify_bumped (fun _ => by rfl) tree n id

theorem noteExpandable_bumped (tree : TreeView) (n id : NodeId) (found : Bool) :
    (tree.bumped n).noteExpandable id found = (tree.noteExpandable id found).bumped n := by
  rw [noteExpandable_eq, noteExpandable_eq]
  exact modify_bumped (fun _ => by rfl) tree n id

theorem adoptResolved_bumped (tree : TreeView) (n id : NodeId) (resolved : Option Handle) :
    (tree.bumped n).adoptResolved id resolved = (tree.adoptResolved id resolved).bumped n := by
  cases resolved with
  | none => rfl
  | some handle => exact modify_bumped (fun _ => by rfl) tree n id

theorem dropDeadSelection_bumped (tree : TreeView) (n : NodeId) :
    (tree.bumped n).dropDeadSelection = tree.dropDeadSelection.bumped n := by
  have hselected : (tree.bumped n).selected = tree.selected := rfl
  simp only [dropDeadSelection, hselected, holds_bumped]
  cases tree.selected with
  | none => rfl
  | some id =>
    dsimp only
    split <;> rfl

theorem collapsedChildren_bumped (tree : TreeView) (n parent : NodeId) :
    (tree.bumped n).collapsedChildren parent = tree.collapsedChildren parent := by
  have hchildren : (tree.bumped n).children parent = tree.children parent :=
    congrFun (children_bumped tree n) parent
  rw [collapsedChildren, collapsedChildren, hchildren]
  refine List.filterMap_congr fun child _ => ?_
  have hsame := @map_get?_bumped _ (fun node => (node.expanded, node.handle)) (fun _ _ => rfl)
    tree n child
  simp only [node?]
  cases hlive : tree.arena.get? child with
  | none =>
    rw [Arena.dead_of_map_get?_eq hsame hlive]
  | some node =>
    obtain ⟨now, hnow, hseen⟩ := Arena.live_of_map_get?_eq hsame hlive
    obtain ⟨hexpanded, hhandle⟩ := Prod.mk.inj hseen
    simp only [hnow, hexpanded, hhandle]

theorem mergeFetched_bumped (hn : n < tree.arena.nextId) (ticket : Ticket) (listing : Listing) :
    (tree.bumped n).mergeFetched ticket listing =
      ((tree.mergeFetched ticket listing).1, (tree.mergeFetched ticket listing).2.bumped n) := by
  have hadopted := adoptResolved_bumped tree n ticket.node listing.resolved
  have hbound : n < (tree.adoptResolved ticket.node listing.resolved).arena.nextId := by
    cases listing.resolved with
    | none => exact hn
    | some handle => exact (Arena.nextId_modify tree.arena ticket.node _).symm ▸ hn
  simp only [mergeFetched, hadopted]
  generalize tree.adoptResolved ticket.node listing.resolved = adopted at hbound ⊢
  have hmerged := Arena.mergeListing_bumped hbound ticket.node listing.entries ticket.recursive
    (adopted.root = some ticket.node)
  have harena : (adopted.bumped n).arena = adopted.arena.bumped n := rfl
  have hroot : (adopted.bumped n).root = adopted.root := rfl
  rw [harena, hroot, hmerged]
  generalize adopted.arena.mergeListing _ _ _ _ = result
  obtain ⟨answer, merged⟩ := result
  cases answer with
  | error e => rfl
  | ok outcome =>
    exact congrArg (Prod.mk _) (dropDeadSelection_bumped { adopted with arena := merged } n)

theorem checkTargets_bumped (fs : FileSystem σ) (lister : Lister)
    (targets : List (NodeId × Handle)) (tree : TreeView) (n : NodeId) (s : σ) :
    checkTargets fs lister targets (tree.bumped n) s =
      ((checkTargets fs lister targets tree s).1.bumped n,
        (checkTargets fs lister targets tree s).2) := by
  fun_induction checkTargets fs lister targets tree s with
  | case1 => rfl
  | case2 id handle targets tree s found s' hcheck ih =>
    simp only [checkTargets, hcheck, noteExpandable_bumped, ih]
  | case3 id handle targets tree s e s' hcheck ih => simp only [checkTargets, hcheck, ih]

def Visit.bumped (v : Visit σ) (n : NodeId) : Visit σ := { v with tree := v.tree.bumped n }

theorem visitChecks_bumped (fs : FileSystem σ) (lister : Lister) (id : NodeId) (always : Bool)
    (outcome : MergeOutcome) (tree : TreeView) (n : NodeId) (s : σ) :
    visitChecks fs lister id always outcome (tree.bumped n) s =
      (visitChecks fs lister id always outcome tree s).bumped n := by
  simp only [visitChecks, isExpanded_bumped, checkCollapsed, collapsedChildren_bumped,
    checkTargets_bumped]
  split <;> rfl

theorem visit_eq_of_live (hlive : tree.arena.get? id = some node) (fs : FileSystem σ)
    (lister : Lister) (recursive always : Bool) (s : σ) :
    visit fs lister id recursive always tree s =
      let fetched := fetchVisible fs lister.filter lister.volumes node.handle s
      match fetched.1 with
      | .error e => ⟨.error e, 0, tree.bumped id, fetched.2⟩
      | .ok listing =>
        match (tree.bumped id).mergeFetched ⟨id, 0, node.handle, recursive⟩ listing with
        | (.ok (.applied outcome), tree') => visitChecks fs lister id always outcome tree' fetched.2
        | (answer, tree') => ⟨answer, 0, tree', fetched.2⟩ := by
  have hself : (tree.bumped id).node? id = _ := get?_bumped hlive
  unfold visit
  simp only [issue_of_live hlive, Lister.fetch, applyFetched, hself, ne_eq, not_true, if_false]
  cases (fetchVisible fs lister.filter lister.volumes node.handle s).1 with
  | error e => rfl
  | ok listing => rfl

theorem visit_bumped (hn : n < tree.arena.nextId) (fs : FileSystem σ) (lister : Lister)
    (id : NodeId) (recursive always : Bool) (s : σ) :
    visit fs lister id recursive always (tree.bumped n) s =
      (visit fs lister id recursive always tree s).bumped n := by
  have hhandle := @map_get?_bumped _ Node.handle (fun _ _ => rfl) tree n id
  cases hlive : tree.arena.get? id with
  | none =>
    rw [visit_of_dead hlive, visit_of_dead (Arena.dead_of_map_get?_eq hhandle hlive)]
    rfl
  | some node =>
    obtain ⟨now, hnow, hsame⟩ := Arena.live_of_map_get?_eq hhandle hlive
    have hbound : n < (tree.bumped id).arena.nextId :=
      (Arena.nextId_modify tree.arena id _).symm ▸ hn
    rw [visit_eq_of_live hlive, visit_eq_of_live hnow, hsame, bumped_comm]
    dsimp only
    cases (fetchVisible fs lister.filter lister.volumes node.handle s).1 with
    | error e => rfl
    | ok listing =>
      dsimp only
      rw [mergeFetched_bumped hbound]
      generalize (tree.bumped id).mergeFetched _ listing = result
      obtain ⟨answer, merged⟩ := result
      cases answer with
      | error e => rfl
      | ok application =>
        cases application with
        | stale => rfl
        | applied outcome => exact visitChecks_bumped ..

theorem refresh_false_bumped (hw : tree.WellFormed) (hn : n < tree.arena.nextId)
    (fs : FileSystem σ) (id : NodeId) (s : σ) :
    refresh fs id false (tree.bumped n) s =
      ((refresh fs id false tree s).1, (refresh fs id false tree s).2.1.bumped n,
        (refresh fs id false tree s).2.2) := by
  rw [refresh, refresh, refreshWith_false_eq hw, refreshWith_false_eq (hw.bumped n)]
  have hlister : (tree.bumped n).lister = tree.lister := rfl
  rw [hlister, visit_bumped hn]
  rfl

theorem follow_bumped (hw : tree.WellFormed) (hn : n < tree.arena.nextId) (fs : FileSystem σ)
    (changed : String) (s : σ) :
    follow fs changed (tree.bumped n) s =
      ((follow fs changed tree s).1, (follow fs changed tree s).2.1.bumped n,
        (follow fs changed tree s).2.2) := by
  have howner := owner?_bumped tree n changed
  cases hid : tree.owner? changed with
  | none => rw [follow_of_no_owner hid, follow_of_no_owner (howner.trans hid)]
  | some id =>
    rw [follow_of_owner hid, follow_of_owner (howner.trans hid), refresh_false_bumped hw hn]

end TreeView

end LazyTree
