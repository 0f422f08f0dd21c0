import LazyTree.Proofs.Handles
import LazyTree.Proofs.Refreshing

/-!
How a selection binds the tree and lists one level. A listed level is resolved.
-/
namespace LazyTree
variable {σ : Type} {fs : FileSystem σ} {s s' : σ}

theorem resolved_of_fetched {filter : NameFilter} {volumes : VolumeMap} {handle : Handle}
    {listing : Listing} (h : (fetchVisible fs filter volumes handle s).1 = .ok listing) :
    (listing.resolved.getD handle).isUnresolved = false := by
  rcases fetchVisible_ok h with ⟨hkind, rfl⟩ | ⟨hkind, hlist⟩ | ⟨found, _, _, hresolved, hlist⟩
  · simp [Listing.empty, Handle.isUnresolved, hkind]
  · obtain ⟨_, _, rfl⟩ := listDirectory_ok hlist
    simp [Handle.isUnresolved, hkind]
  · obtain ⟨_, _, rfl⟩ := listDirectory_ok hlist
    exact hresolved

namespace TreeView
variable {tree tree' : TreeView} {id root : NodeId} {node : Node}

theorem mem_children_of_wayTo? {target : String} {child : NodeId}
    (h : tree.wayTo? id target = some child) : child ∈ tree.children id :=
  List.mem_of_find?_eq_some h

theorem covers_of_wayTo? {target path : String} {child : NodeId}
    (h : tree.wayTo? id target = some child) (hpath : tree.pathOf? child = some path) :
    Path.covers path target = true := by
  have hcovers := List.find?_some h
  simpa only [hpath] using hcovers

theorem root_ensureRoot (tree : TreeView) (top : String) :
    (tree.ensureRoot top).1.root = some (tree.ensureRoot top).2 := by
  unfold ensureRoot
  cases hroot : tree.root with
  | none => rfl
  | some root =>
    dsimp only
    split
    · exact hroot
    · rfl

theorem rootPath?_ensureRoot (tree : TreeView) (top : String) :
    (tree.ensureRoot top).1.rootPath? = some top := by
  have hbound : (tree.bindTo top).1.rootPath? = some top := by
    have hroot : (tree.bindTo top).1.root = some (tree.bindTo top).2 := rfl
    obtain ⟨node, hlive, _⟩ := (wellFormed_bindTo tree top).root_live hroot
    rw [rootPath?, hroot, Option.bind_some, pathOf?, node?, hlive, get?_bindTo hlive]
    rfl
  unfold ensureRoot
  split
  · split
    · assumption
    · exact hbound
  · exact hbound

theorem lister_ensureRoot (tree : TreeView) (top : String) :
    (tree.ensureRoot top).1.lister = tree.lister := by
  unfold ensureRoot
  split
  · split <;> rfl
  · rfl

theorem ensureRoot_of_bound {top : String} (hroot : tree.root = some root)
    (hpath : tree.rootPath? = some top) : tree.ensureRoot top = (tree, root) := by
  simp [ensureRoot, hroot, hpath]

theorem rootPath?_eq (hw : tree.WellFormed) (hw' : tree'.WellFormed) {issued : List NodeId}
    (hevolves : Arena.Evolves issued tree.arena tree'.arena) (hroot : tree'.root = tree.root) :
    tree'.rootPath? = tree.rootPath? := by
  rw [rootPath?, rootPath?, hroot]
  cases hsome : tree.root with
  | none => rfl
  | some root =>
    obtain ⟨was, hwas, _⟩ := hw.root_live hsome
    obtain ⟨now, hnow, _⟩ := hw'.root_live (hroot.trans hsome)
    simp [pathOf?, node?, hwas, hnow, (hevolves.lived hwas hnow).1]

/-- Fetching a level fails, and a failing root takes the whole tree along, or its listing is applied
and the children are checked. -/
theorem listLevel_cases (hw : tree.WellFormed) (hlive : tree.arena.get? id = some node)
    (fs : FileSystem σ) (root : NodeId) (s : σ) :
    let fetched := fetchVisible fs tree.filter tree.volumes node.handle s
    (∃ e, fetched.1 = .error e ∧ listLevel fs id root tree s =
      (.error e, if id = root then (tree.bumped id).clear else tree.bumped id, fetched.2)) ∨
    ∃ listing outcome listed children, fetched.1 = .ok listing ∧
      Applied (tree.bumped id) listed id { node with generation := node.generation + 1 } listing
        children ∧
      let v := visitChecks fs tree.lister id true outcome listed fetched.2
      listLevel fs id root tree s = (.ok (), v.tree, v.world) := by
  intro fetched
  unfold listLevel
  rw [refreshWith_eq]
  rcases visit_of_live hw hlive fs tree.lister false true s with
    ⟨e, hfetch, heq⟩ | ⟨listing, outcome, listed, children, hfetch, happlied, hcascade, heq⟩
  · refine .inl ⟨e, hfetch, ?_⟩
    rw [heq]
    rfl
  · have hempty : outcome.cascade = [] := by simp [hcascade]
    refine .inr ⟨listing, outcome, listed, children, hfetch, happlied, ?_⟩
    simp only [heq, visitChecks_answer, hempty, cascade_of_empty]
    rfl

theorem listLevel_ok_trail (hw : tree.WellFormed)
    (h : listLevel fs id root tree s = (.ok (), tree', s')) :
    Trail fs tree s (refreshMoves fs id false true tree s) tree' s' := by
  have hrefresh := refreshWith_trail hw fs id false true s
  unfold listLevel at h
  generalize refreshWith fs id false true tree s = result at hrefresh h
  obtain ⟨_ | totals, refreshed, world⟩ := result
  · simp at h
  · obtain ⟨rfl, rfl⟩ : refreshed = tree' ∧ world = s' := by simpa using h
    exact hrefresh

theorem path_of_listLevel (hw : tree.WellFormed) (hlive : tree.arena.get? id = some node)
    (h : listLevel fs id root tree s = (.ok (), tree', s')) :
    ∃ now, tree'.arena.get? id = some now ∧ now.path = node.path := by
  obtain ⟨now, hnow⟩ := listLevel_live hw hlive h
  exact ⟨now, hnow, (((listLevel_ok_trail hw h).run.evolves hw).lived hlive hnow).1⟩

theorem resolved_of_listLevel (hw : tree.WellFormed) (hlive : tree.arena.get? id = some node)
    (h : listLevel fs id root tree s = (.ok (), tree', s')) :
    ∃ now, tree'.arena.get? id = some now ∧ now.handle.isUnresolved = false := by
  rcases listLevel_cases hw hlive fs root s with
    ⟨e, _, heq⟩ | ⟨listing, outcome, listed, children, hfetch, happlied, heq⟩
  · simp [heq] at h
  · obtain rfl : _ = tree' := congrArg (fun result => result.2.1) (heq.symm.trans h)
    have hhandle := @map_get?_visitChecks _ _ Node.handle (fun _ _ => rfl) fs tree.lister id true
      outcome listed (fetchVisible fs tree.filter tree.volumes node.handle s).2 id
    obtain ⟨now, hnow, hsame⟩ := Arena.live_of_map_get?_eq hhandle happlied.relisted.self
    exact ⟨now, hnow, hsame ▸ resolved_of_fetched hfetch⟩

end TreeView

end LazyTree
