import LazyTree.Proofs.Levels
import LazyTree.Proofs.Rows

/-!
What a selection leaves of its target. A descent ends with the target shown and resolved; a target
that is selected already stays as it is, be it hidden or a placeholder again.
-/
namespace LazyTree
variable {σ : Type} {fs : FileSystem σ} {s s' : σ}

namespace TreeView
variable {tree found last : TreeView} {id root : NodeId} {node : Node} {target path : String}

/-- A node can be seen, and stands for a directory. -/
structure Presents (tree : TreeView) (id : NodeId) : Prop where
  uncovered : tree.OpenAbove id
  row : id ∈ (tree.rows false).map Row.id
  resolved : ∃ node, tree.node? id = some node ∧ node.handle.isUnresolved = false

/-- The end of a descent: its goal is resolved, and then settled on. -/
structure Arrived (last : TreeView) (id : NodeId) (found : TreeView) : Prop where
  wellFormed : found.WellFormed
  resolved : ∃ node, found.node? id = some node ∧ node.handle.isUnresolved = false
  settled : last = found.settle id

theorem arriveAt_ok (hw : tree.WellFormed) {current : NodeId}
    (hlive : tree.node? current = some node)
    (h : arriveAt fs current root node.handle tree s = (.ok id, last, s')) :
    ∃ found, Arrived last id found := by
  unfold arriveAt at h
  cases hunresolved : node.handle.isUnresolved with
  | false =>
    simp only [hunresolved, Bool.false_eq_true, if_false, Prod.mk.injEq, Except.ok.injEq] at h
    obtain ⟨rfl, rfl, rfl⟩ := h
    exact ⟨tree, hw, ⟨node, hlive, hunresolved⟩, rfl⟩
  | true =>
    simp only [hunresolved, if_true] at h
    have hlevel := (listLevel_trail hw fs current root s).run.wellFormed hw
    cases hlist : listLevel fs current root tree s with
    | mk answer rest =>
      obtain ⟨listed, world⟩ := rest
      rw [hlist] at hlevel h
      cases answer with
      | error e => simp at h
      | ok _ =>
        simp only [Prod.mk.injEq, Except.ok.injEq] at h
        obtain ⟨rfl, rfl, rfl⟩ := h
        exact ⟨listed, hlevel, resolved_of_listLevel hw hlive hlist, rfl⟩

theorem descend_ok (hw : tree.WellFormed) {budget : Nat} {current : NodeId}
    (h : (descend fs target root budget current tree s).1 = some (.ok id)) :
    ∃ found, Arrived (descend fs target root budget current tree s).2.1 id found := by
  fun_induction descend fs target root budget current tree s with
  | case1 => simp at h
  | case2 => simp at h
  | case3 budget current tree s node hlive world hsame answer last s' harrive =>
    obtain rfl : answer = .ok id := Option.some.inj h
    exact arriveAt_ok hw hlive harrive
  | case4 budget current tree s node hlive world hsame child hway ih => exact ih hw h
  | case5 => simp at h
  | case6 budget current tree s node hlive world hsame hway _ listed world' hlist child _ ih =>
    have hlisted := (listLevel_trail hw fs current root world).run.wellFormed hw
    rw [hlist] at hlisted
    exact ih hlisted h
  | case7 => simp at h

theorem selected_of_alreadySelected (h : (alreadySelected fs target tree s).1 = some id) :
    tree.selected = some id := by
  unfold alreadySelected at h
  cases hs : tree.selected with
  | none => simp [hs] at h
  | some selected =>
    simp only [hs] at h
    split at h
    · simp at h
    · split at h
      · exact h
      · simp at h

theorem selectWithin_ok (hw : tree.WellFormed) {budget : Nat}
    (h : (selectWithin fs budget path tree s).1 = some (.ok id)) :
    ((alreadySelected fs (Path.normalize path) tree s).1 = some id ∧
      (selectWithin fs budget path tree s).2.1 = tree) ∨
    ((alreadySelected fs (Path.normalize path) tree s).1 = none ∧
      ∃ found, Arrived (selectWithin fs budget path tree s).2.1 id found) := by
  unfold selectWithin at h ⊢
  dsimp only at h ⊢
  generalize alreadySelected fs (Path.normalize path) tree s = result at h ⊢
  obtain ⟨_ | selected, world⟩ := result
  · have hbound := ensureRoot_trail fs tree (tree.volumes.rootOf (Path.normalize path)) world
    refine .inr ⟨rfl, descend_ok ?_ h⟩
    exact (hbound.run.wellFormed hw).congr (fun _ => rfl) rfl (by simp)
  · obtain rfl : selected = id := by simpa using h
    exact .inl ⟨rfl, rfl⟩

theorem Arrived.live (h : Arrived last id found) :
    ∃ node, last.node? id = some node ∧ node.handle.isUnresolved = false := by
  obtain ⟨node, hlive, hresolved⟩ := h.resolved
  have hhandle : ((found.settle id).arena.get? id).map Node.handle =
      (found.arena.get? id).map Node.handle := map_get?_expandUpwards (fun _ => rfl) ..
  obtain ⟨now, hnow, hsame⟩ := Arena.live_of_map_get?_eq hhandle hlive
  rw [h.settled]
  exact ⟨now, hnow, hsame ▸ hresolved⟩

theorem Arrived.presents (h : Arrived last id found) : last.Presents id := by
  obtain ⟨node, hlive, _⟩ := h.resolved
  have hlast : last.WellFormed := h.settled ▸ h.wellFormed.settle hlive
  have hopen : last.OpenAbove id := by
    intro above hup hne
    have hunder := (hlast.linked.reaches_iff_under fun _ _ => rfl).mp hup
    rw [h.settled] at hunder ⊢
    refine isExpanded_settle h.wellFormed (hunder.congr fun i => ?_) hne
    exact map_get?_expandUpwards (fun _ => rfl) ..
  obtain ⟨now, hnow, hresolved⟩ := h.live
  exact ⟨hopen, (mem_rows_iff hlast).mpr ⟨⟨now, hnow⟩, .inl hopen⟩, now, hnow, hresolved⟩

end TreeView

namespace Session

/-- A selection that succeeds selects a live node. The node can be seen and is resolved if the
selection went down to it, and otherwise if it was so before. -/
theorem run_selection_presents_iff (fs : FileSystem σ) (filter : NameFilter) (volumes : VolumeMap)
    (world : σ) (actions : List (Action σ)) (budget : Nat) (path : String) (id : NodeId) :
    let x := (start filter volumes world).run fs actions
    let after := (x.tree.selectWithin fs budget path x.world).2.1
    (x.tree.selectWithin fs budget path x.world).1 = some (.ok id) →
      after.selected = some id ∧ (∃ node, after.node? id = some node) ∧
      (after.Presents id ↔
        (x.tree.alreadySelected fs (Path.normalize path) x.world).1 = none ∨
          x.tree.Presents id) := by
  intro x after h
  have hw : x.tree.WellFormed := wellFormed_run (wellFormed_start filter volumes world) fs actions
  rcases TreeView.selectWithin_ok hw h with ⟨hselected, hsame⟩ | ⟨hnone, found, harrived⟩
  · have hid := TreeView.selected_of_alreadySelected hselected
    have hafter : after = x.tree := hsame
    rw [hafter, hselected]
    exact ⟨hid, hw.selected_live hid, by simp⟩
  · obtain ⟨node, hnode, _⟩ := harrived.live
    refine ⟨?_, ⟨node, hnode⟩, iff_of_true harrived.presents (.inl hnone)⟩
    exact (congrArg TreeView.selected harrived.settled).trans rfl

/-- The way down to a directory opens what lies above it. -/
theorem twoBranches_selection_presents :
    let x := (start .everything ⟨"/net", [], "", "", [], []⟩ twoBranches).run Scripted.fileSystem
      [.operate (.select "/a/b/d" 3), .operate (.collapse 2), .operate (.select "/a/c/e" 3)]
    (x.tree.selectWithin Scripted.fileSystem 3 "/a/b/d" x.world).2.1.Presents 4 :=
  ((run_selection_presents_iff Scripted.fileSystem .everything ⟨"/net", [], "", "", [], []⟩
    twoBranches
    [.operate (.select "/a/b/d" 3), .operate (.collapse 2), .operate (.select "/a/c/e" 3)]
    3 "/a/b/d" 4 (by decide +kernel)).2.2).mpr (.inl (by decide +kernel))

/-- A node that is selected already stays hidden when it is selected again, and stays a placeholder
where it has become one. -/
theorem reselection_leaves_hidden :
    let offline :=
      { twoBranches with listings := [("/a", [⟨"/a/b", "b", true, true⟩, .directory "/a/c"])] }
    let x := (start .everything ⟨"/net", [], "", "", [], []⟩ twoBranches).run Scripted.fileSystem
      [.operate (.select "/a/b/d" 3), .operate (.collapse 2)]
    let y := (start .everything ⟨"/net", [], "", "", [], []⟩ twoBranches).run Scripted.fileSystem
      [.operate (.select "/a/b" 2), .drift offline, .operate (.refresh 1 false)]
    let hidden := x.tree.selectWithin Scripted.fileSystem 3 "/a/b/d" x.world
    let unresolved := y.tree.selectWithin Scripted.fileSystem 2 "/a/b" y.world
    (hidden.1 = some (.ok 4) ∧ ¬ hidden.2.1.Presents 4) ∧
      unresolved.1 = some (.ok 2) ∧ ¬ unresolved.2.1.Presents 2 := by
  intro offline x y hidden unresolved
  refine ⟨⟨by decide +kernel, fun h => absurd h.row (by decide +kernel)⟩, by decide +kernel, ?_⟩
  intro h
  have hunresolved : (unresolved.2.1.node? 2).map (·.handle.isUnresolved) = some true := by
    decide +kernel
  obtain ⟨node, hlive, hresolved⟩ := h.resolved
  simp [hlive, hresolved] at hunresolved

end Session

end LazyTree
