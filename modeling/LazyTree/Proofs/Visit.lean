import LazyTree.Proofs.Moves

/-!
One refresh with the checks that follow it. It is what a lone refresh and every step of a cascade
consist of.
-/
namespace LazyTree.TreeView
variable {σ : Type} {fs : FileSystem σ} {lister : Lister} {tree : TreeView} {s : σ}
variable {id : NodeId} {node : Node} {recursive always : Bool} {c : Cascade σ}

structure Visit (σ : Type) where
  answer : Except Failure Application
  /-- How many children were checked. -/
  checked : Nat
  tree : TreeView
  world : σ

/-- Checks the children of a node that was just listed, if they are shown or checked always. -/
def visitChecks (fs : FileSystem σ) (lister : Lister) (id : NodeId) (always : Bool)
    (outcome : MergeOutcome) (tree : TreeView) (s : σ) : Visit σ :=
  if always || tree.arena.isExpanded id then
    let (checked, tree, s) := checkCollapsed fs lister id tree s
    ⟨.ok (.applied outcome), checked, tree, s⟩
  else ⟨.ok (.applied outcome), 0, tree, s⟩

def visit (fs : FileSystem σ) (lister : Lister) (id : NodeId) (recursive always : Bool)
    (tree : TreeView) (s : σ) : Visit σ :=
  match tree.issue id recursive with
  | (.error e, tree) => ⟨.error e, 0, tree, s⟩
  | (.ok ticket, tree) =>
    let (fetched, s) := lister.fetch fs ticket s
    match tree.applyFetched ticket fetched with
    | (.ok (.applied outcome), tree) => visitChecks fs lister id always outcome tree s
    | (answer, tree) => ⟨answer, 0, tree, s⟩

theorem issue_of_dead (h : tree.arena.get? id = none) (recursive : Bool) :
    tree.issue id recursive = (.error (.detached id), tree) := by
  simp [issue, node?, h]

theorem issue_of_live (h : tree.arena.get? id = some node) (recursive : Bool) :
    tree.issue id recursive =
      (.ok ⟨id, node.generation + 1, node.handle, recursive⟩, tree.bumped id) := by
  simp [issue, node?, h, bumped]

theorem refreshWith_eq (fs : FileSystem σ) (id : NodeId) (recursive always : Bool) (tree : TreeView)
    (s : σ) :
    refreshWith fs id recursive always tree s =
      let v := visit fs tree.lister id recursive always tree s
      match v.answer with
      | .error e => (.error e, v.tree, v.world)
      | .ok .stale => (.ok { Totals.zero with stale := true }, v.tree, v.world)
      | .ok (.applied outcome) =>
        let c := Cascade.run fs tree.lister v.tree.size
          ⟨outcome.cascade, (Totals.zero.add outcome).addChecked v.checked, v.tree, v.world⟩
        (.ok c.totals, c.tree, c.world) := by
  unfold refreshWith visit
  cases hlive : tree.arena.get? id with
  | none => simp only [issue_of_dead hlive]
  | some node =>
    simp only [issue_of_live hlive]
    split
    · rename_i hresult
      simp only [hresult]
    · rename_i hresult
      simp only [hresult]
    · rename_i hresult
      simp only [hresult, visitChecks]
      split <;> rfl

theorem refreshNode_of_dead (h : c.tree.arena.get? id = none) :
    Cascade.refreshNode fs lister id c = c := by
  simp [Cascade.refreshNode, issue_of_dead h]

theorem refreshNode_of_live (h : c.tree.arena.get? id = some node) :
    Cascade.refreshNode fs lister id c =
      let v := visit fs lister id true false c.tree c.world
      match v.answer with
      | .error _ => ⟨c.queue, c.totals.addFailed, v.tree, v.world⟩
      | .ok .stale => ⟨c.queue, c.totals, v.tree, v.world⟩
      | .ok (.applied outcome) =>
        ⟨c.queue ++ outcome.cascade, (c.totals.add outcome).addChecked v.checked, v.tree,
          v.world⟩ := by
  unfold Cascade.refreshNode visit
  simp only [issue_of_live h]
  split
  · rename_i hresult
    simp only [hresult, Cascade.checkIfExpanded, visitChecks, Bool.false_or]
    split <;> rfl
  · rename_i hresult
    simp only [hresult]
  · rename_i hresult
    simp only [hresult]

theorem step_of_dead {queue : List NodeId} (hqueue : c.queue = id :: queue)
    (h : c.tree.arena.get? id = none) : c.step fs lister = { c with queue := queue } := by
  have hpopped : ({ c with queue := queue } : Cascade σ).tree.arena.get? id = none := h
  simp only [Cascade.step, hqueue, refreshNode_of_dead hpopped]

theorem step_of_live {queue : List NodeId} (hqueue : c.queue = id :: queue)
    (h : c.tree.arena.get? id = some node) :
    c.step fs lister =
      let v := visit fs lister id true false c.tree c.world
      match v.answer with
      | .error _ => ⟨queue, c.totals.addFailed, v.tree, v.world⟩
      | .ok .stale => ⟨queue, c.totals, v.tree, v.world⟩
      | .ok (.applied outcome) =>
        ⟨queue ++ outcome.cascade, (c.totals.add outcome).addChecked v.checked, v.tree,
          v.world⟩ := by
  have hpopped : ({ c with queue := queue } : Cascade σ).tree.arena.get? id = some node := h
  simp only [Cascade.step, hqueue, refreshNode_of_live hpopped]

theorem visit_of_dead (h : tree.arena.get? id = none) (recursive always : Bool) (s : σ) :
    visit fs lister id recursive always tree s = ⟨.error (.detached id), 0, tree, s⟩ := by
  simp only [visit, issue_of_dead h]

theorem refreshNode_tree (fs : FileSystem σ) (lister : Lister) (id : NodeId) (c : Cascade σ) :
    (Cascade.refreshNode fs lister id c).tree =
      (visit fs lister id true false c.tree c.world).tree := by
  cases hlive : c.tree.arena.get? id with
  | none => rw [refreshNode_of_dead hlive, visit_of_dead hlive]
  | some node =>
    rw [refreshNode_of_live hlive]
    dsimp only
    split <;> rfl

theorem refreshNode_world (fs : FileSystem σ) (lister : Lister) (id : NodeId) (c : Cascade σ) :
    (Cascade.refreshNode fs lister id c).world =
      (visit fs lister id true false c.tree c.world).world := by
  cases hlive : c.tree.arena.get? id with
  | none => rw [refreshNode_of_dead hlive, visit_of_dead hlive]
  | some node =>
    rw [refreshNode_of_live hlive]
    dsimp only
    split <;> rfl

/-- A visit of a live node: fetching fails and nothing else happens, or the listing is applied and
the checks follow. -/
theorem visit_of_live (h : tree.WellFormed) (hlive : tree.arena.get? id = some node)
    (fs : FileSystem σ) (lister : Lister) (recursive always : Bool) (s : σ) :
    let fetched := fetchVisible fs lister.filter lister.volumes node.handle s
    (∃ e, fetched.1 = .error e ∧
      visit fs lister id recursive always tree s = ⟨.error e, 0, tree.bumped id, fetched.2⟩) ∨
    ∃ listing outcome listed children, fetched.1 = .ok listing ∧
      Applied (tree.bumped id) listed id { node with generation := node.generation + 1 } listing
        children ∧
      outcome.cascade = children.filter (fun child => recursive && tree.arena.isExpanded child) ∧
      visit fs lister id recursive always tree s =
        visitChecks fs lister id always outcome listed fetched.2 := by
  intro fetched
  have hself := get?_bumped hlive
  unfold visit
  simp only [issue_of_live hlive, Lister.fetch]
  cases fetched.1 with
  | error e =>
    refine .inl ⟨e, rfl, ?_⟩
    have hdropped : (tree.bumped id).applyFetched ⟨id, node.generation + 1, node.handle, recursive⟩
        (.error e) = (.error e, tree.bumped id) := by
      simp [applyFetched, node?, hself]
    rw [hdropped]
  | ok listing =>
    obtain ⟨outcome, listed, children, happly, happlied, hcascade⟩ :=
      @applyFetched_current _ _ ⟨id, node.generation + 1, node.handle, recursive⟩ (h.bumped id)
        hself rfl listing
    refine .inr ⟨listing, outcome, listed, children, rfl, happlied, ?_, ?_⟩
    · rw [hcascade]
      refine List.filter_congr fun child _ => ?_
      rw [Arena.isExpanded_congr (map_get?_bumped (fun _ _ => by rfl) tree id child)]
    · rw [happly]

theorem map_get?_checkTargets {β : Type} {view : Node → β}
    (hview : ∀ (node : Node) (found : Bool), view { node with expandable := found } = view node)
    (fs : FileSystem σ) (lister : Lister) (targets : List (NodeId × Handle)) (tree : TreeView)
    (s : σ) (id : NodeId) :
    ((checkTargets fs lister targets tree s).1.arena.get? id).map view =
      (tree.arena.get? id).map view := by
  fun_induction checkTargets fs lister targets tree s with
  | case1 => rfl
  | case2 id handle targets tree s found s' hcheck ih =>
    rw [ih, noteExpandable_eq]
    exact Arena.map_get?_modify (fun node => hview node _) _
  | case3 id handle targets tree s e s' hcheck ih => exact ih

theorem map_get?_visitChecks {β : Type} {view : Node → β}
    (hview : ∀ (node : Node) (found : Bool), view { node with expandable := found } = view node)
    (fs : FileSystem σ) (lister : Lister) (id : NodeId) (always : Bool) (outcome : MergeOutcome)
    (tree : TreeView) (s : σ) (other : NodeId) :
    ((visitChecks fs lister id always outcome tree s).tree.arena.get? other).map view =
      (tree.arena.get? other).map view := by
  unfold visitChecks
  split
  · exact map_get?_checkTargets hview ..
  · rfl

theorem visitChecks_answer (fs : FileSystem σ) (lister : Lister) (id : NodeId) (always : Bool)
    (outcome : MergeOutcome) (tree : TreeView) (s : σ) :
    (visitChecks fs lister id always outcome tree s).answer = .ok (.applied outcome) := by
  unfold visitChecks
  split <;> rfl

theorem visit_live (h : tree.WellFormed) (hlive : tree.arena.get? id = some node)
    (fs : FileSystem σ) (lister : Lister) (recursive always : Bool) (s : σ) :
    ∃ node', (visit fs lister id recursive always tree s).tree.arena.get? id = some node' := by
  rcases visit_of_live h hlive fs lister recursive always s with
    ⟨e, _, heq⟩ | ⟨listing, outcome, listed, children, _, happlied, _, heq⟩
  · rw [heq]
    exact ⟨_, get?_bumped hlive⟩
  · rw [heq]
    have hmap := @map_get?_visitChecks _ _ Node.parent (fun _ _ => rfl) fs lister id always outcome
      listed (fetchVisible fs lister.filter lister.volumes node.handle s).2 id
    obtain ⟨node', hnode', _⟩ := Arena.live_of_map_get?_eq hmap happlied.relisted.self
    exact ⟨node', hnode'⟩

theorem get?_checkTargets_of_not_mem {targets : List (NodeId × Handle)}
    (h : id ∉ targets.map Prod.fst) (fs : FileSystem σ) (lister : Lister) (tree : TreeView)
    (s : σ) :
    (checkTargets fs lister targets tree s).1.arena.get? id = tree.arena.get? id := by
  fun_induction checkTargets fs lister targets tree s with
  | case1 => rfl
  | case2 checked handle targets tree s found s' hcheck ih =>
    simp only [List.map_cons, List.mem_cons, not_or] at h
    rw [ih h.2, noteExpandable_eq]
    exact Arena.get?_modify_of_ne h.1 _
  | case3 checked handle targets tree s e s' hcheck ih =>
    simp only [List.map_cons, List.mem_cons, not_or] at h
    exact ih h.2

theorem mem_collapsedChildren {parent : NodeId} {handle : Handle} :
    (id, handle) ∈ tree.collapsedChildren parent ↔ id ∈ tree.children parent ∧
      ∃ node, tree.arena.get? id = some node ∧ node.expanded = false ∧ node.handle = handle := by
  simp only [collapsedChildren, List.mem_filterMap]
  constructor
  · rintro ⟨child, hc, hchild⟩
    cases hlive : tree.node? child with
    | none => simp [hlive] at hchild
    | some node =>
      cases hexpanded : node.expanded with
      | true => simp [hlive, hexpanded] at hchild
      | false =>
        simp only [hlive, hexpanded, Bool.false_eq_true, if_false, Option.some.injEq,
          Prod.mk.injEq] at hchild
        obtain ⟨rfl, rfl⟩ := hchild
        exact ⟨hc, node, hlive, hexpanded, rfl⟩
  · rintro ⟨hc, node, hlive, hexpanded, rfl⟩
    exact ⟨id, hc, by simp [node?, hlive, hexpanded]⟩

theorem collapsedChildren_nodup (h : tree.WellFormed) (parent : NodeId) :
    ((tree.collapsedChildren parent).map Prod.fst).Nodup := by
  have hsub : ((tree.collapsedChildren parent).map Prod.fst).Sublist (tree.children parent) := by
    unfold collapsedChildren
    generalize tree.children parent = children
    induction children with
    | nil => exact .slnil
    | cons child children ih =>
      cases hlive : tree.node? child with
      | none => simpa [hlive] using ih.cons child
      | some node =>
        cases hexpanded : node.expanded with
        | true => simpa [hlive, hexpanded] using ih.cons child
        | false => simpa [hlive, hexpanded] using ih.cons_cons child
  exact hsub.nodup (h.linked.once parent)

theorem lister_checkTargets (fs : FileSystem σ) (lister : Lister)
    (targets : List (NodeId × Handle)) (tree : TreeView) (s : σ) :
    (checkTargets fs lister targets tree s).1.lister = tree.lister := by
  fun_induction checkTargets fs lister targets tree s with
  | case1 => rfl
  | case2 _ _ _ _ _ _ _ _ ih => exact ih
  | case3 _ _ _ _ _ _ _ _ ih => exact ih

theorem lister_visitChecks (fs : FileSystem σ) (lister : Lister) (id : NodeId) (always : Bool)
    (outcome : MergeOutcome) (tree : TreeView) (s : σ) :
    (visitChecks fs lister id always outcome tree s).tree.lister = tree.lister := by
  unfold visitChecks
  split
  · exact lister_checkTargets ..
  · rfl

theorem lister_visit (h : tree.WellFormed) (fs : FileSystem σ) (lister : Lister) (id : NodeId)
    (recursive always : Bool) (s : σ) :
    (visit fs lister id recursive always tree s).tree.lister = tree.lister := by
  cases hlive : tree.arena.get? id with
  | none => rw [visit_of_dead hlive]
  | some node =>
    rcases visit_of_live h hlive fs lister recursive always s with
      ⟨e, _, heq⟩ | ⟨listing, outcome, listed, children, _, happlied, _, heq⟩
    · rw [heq]
      rfl
    · rw [heq, lister_visitChecks]
      simp only [TreeView.lister, happlied.same_filter, happlied.same_volumes]
      rfl

end LazyTree.TreeView
