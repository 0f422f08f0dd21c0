import LazyTree.Proofs.Ordered

/-!
Which children survive a merge. In a session over a filesystem that names handles after their paths,
siblings are always sorted, and a listing that is applied keeps the nodes of exactly those children
that it lists, with all that hangs below them.
-/
namespace LazyTree

namespace TreeView
variable {tree tree' : TreeView} {target child : NodeId} {node : Node} {listing : Listing}
variable {children : List NodeId} {path : String}

/-- A child keeps its path, its expansion and its children, and below it nothing changes. -/
structure Stays (before after : TreeView) (child : NodeId) : Prop where
  itself : ∃ was now, before.node? child = some was ∧ after.node? child = some now ∧
    now.path = was.path ∧ now.expanded = was.expanded ∧ now.children = was.children
  below : ∀ id, before.arena.Reaches child id → id ≠ child → after.node? id = before.node? id

theorem Applied.stays (ha : Applied tree tree' target node listing children)
    (h : tree.WellFormed) (hbefore : child ∈ tree.children target)
    (hafter : child ∈ tree'.children target) : Stays tree tree' child := by
  obtain ⟨was, hwas, _⟩ := h.linked.owned hbefore
  have hc : child ∈ children := by
    rwa [TreeView.children, Arena.childrenOf_of_live ha.relisted.self] at hafter
  obtain ⟨_, listed, _, _, hnow⟩ := ha.relisted.of_kept h.linked hc hwas
  refine ⟨⟨was, _, hwas, hnow, rfl, rfl, rfl⟩, fun id hr hne => ?_⟩
  exact ha.relisted.below_kept h.linked hc ((h.linked.reaches_iff_under fun _ _ => rfl).mp hr) hne

theorem Applied.kept_iff (ha : Applied tree tree' target node listing children) (h : tree.Orderly)
    (hlive : tree.arena.get? target = some node)
    (hentries : ∀ listed ∈ listing.entries, listed.Named)
    (hsorted : listing.entries.Pairwise fun a b => siblingOrder a b ≠ .gt) :
    (∃ child ∈ tree.children target, child ∈ tree'.children target ∧
      tree.pathOf? child = some path) ↔
    (∃ child ∈ tree.children target, tree.pathOf? child = some path) ∧
      ∃ listed ∈ listing.entries, listed.path = path := by
  have hafter : tree'.children target = children := Arena.childrenOf_of_live ha.relisted.self
  have hbefore : tree.children target = node.children := Arena.childrenOf_of_live hlive
  constructor
  · rintro ⟨child, hc, hc', hpath⟩
    obtain ⟨was, hwas, rfl⟩ := Option.map_eq_some_iff.mp hpath
    obtain ⟨_, listed, hlisted, hfate, _⟩ :=
      ha.relisted.of_kept h.wellFormed.linked (hafter ▸ hc') hwas
    exact ⟨⟨child, hc, hpath⟩, listed, hlisted, h.handles.path_of_kept hwas hfate⟩
  · rintro ⟨⟨child, hc, hpath⟩, listed, hlisted, rfl⟩
    obtain ⟨was, hwas, heq⟩ := Option.map_eq_some_iff.mp hpath
    have hhandle : tree.arena.handle? child = some was.handle :=
      congrArg (Option.map Node.handle) hwas
    have hchildren (c : NodeId) (hmem : c ∈ node.children) :
        ∃ handle, tree.arena.handle? c = some handle := by
      obtain ⟨now, hnow, _⟩ := h.wellFormed.linked.owned (hbefore.symm ▸ hmem)
      exact ⟨now.handle, congrArg (Option.map Node.handle) hnow⟩
    have hnamed := h.named target
    have hinOrder := h.pairwise target
    rw [TreeView.childHandles, hbefore] at hnamed hinOrder
    obtain ⟨kept, l, hfate, hl⟩ := Fate.kept_of_common hchildren
      (.of_named (List.forall_mem_append.mpr ⟨hnamed, hentries⟩)) hinOrder hsorted (hbefore ▸ hc)
      hhandle hlisted (heq.symm.trans (h.handles _ _ hwas).1.symm)
    have hkept := Fate.mem_of_kept hfate
    obtain ⟨now, hnow, _⟩ := h.wellFormed.linked.owned (hbefore.symm ▸ hkept)
    have hpathNow : now.path = listed.path := by
      rw [← h.handles.path_of_kept hnow hfate, hl, (h.handles _ _ hwas).1, heq]
    refine ⟨kept, hbefore.symm ▸ hkept, hafter.symm ▸ ha.relisted.stay kept l hfate, ?_⟩
    exact Option.map_eq_some_iff.mpr ⟨now, hnow, hpathNow⟩

end TreeView

namespace Session
variable {σ : Type} {fs : FileSystem σ} {x : Session σ}

theorem orderly_run (hfs : fs.Regular) (hfit : x.Fits fs Handle.Named) (h : x.tree.Orderly)
    (actions : List (Action σ)) : (x.run fs actions).tree.Orderly := by
  induction actions generalizing x with
  | nil => exact h
  | cons action actions ih =>
    refine ih (fits_act h.wellFormed hfs.gives hfit action) ?_
    exact ((effect_act fs x action).run h.wellFormed hfit).orderly hfs h

theorem orderly_start (filter : NameFilter) (volumes : VolumeMap) (world : σ) :
    (start filter volumes world).tree.Orderly where
  wellFormed := wellFormed_start filter volumes world
  handles := by simp [TreeView.HandlesFit, start, TreeView.unbound]
  sorted := by simp [start, TreeView.unbound, TreeView.childPaths, TreeView.children,
    Arena.childrenOf]

/-- The listing may be applied by an action of its own or in the midst of an operation. -/
theorem run_keeps_listed_children (fs : FileSystem σ) (hfs : fs.Regular) (filter : NameFilter)
    (volumes : VolumeMap) (world : σ) (actions : List (Action σ)) :
    let x := (start filter volumes world).run fs actions
    (∀ id, (x.tree.childHandles id).Pairwise fun a b => siblingOrder a b ≠ .gt) ∧
    ∀ action,
      (x.act fs action).tree = (x.moves fs action).foldl TreeView.act x.tree ∧
    ∀ moves ticket listing later,
      x.moves fs action = moves ++ .apply ticket (.ok listing) :: later →
      let before := moves.foldl TreeView.act x.tree
      let after := before.act (.apply ticket (.ok listing))
      before.Current ticket →
        (∀ path, (∃ child ∈ before.children ticket.node, child ∈ after.children ticket.node ∧
            before.pathOf? child = some path) ↔
          (∃ child ∈ before.children ticket.node, before.pathOf? child = some path) ∧
            ∃ listed ∈ listing.entries, listed.path = path) ∧
        ∀ child ∈ before.children ticket.node, child ∈ after.children ticket.node →
          before.Stays after child := by
  intro x
  have hstart : (start filter volumes world).tree.Orderly := orderly_start filter volumes world
  have hfit : x.Fits fs Handle.Named := fits_run hstart.wellFormed hfs.gives
    (fits_start fs Handle.Named filter volumes world) actions
  have hx : x.tree.Orderly :=
    orderly_run hfs (fits_start fs Handle.Named filter volumes world) hstart actions
  refine ⟨hx.pairwise, fun action => ⟨(effect_act fs x action).eq_foldl hx.wellFormed, ?_⟩⟩
  intro moves ticket listing later hmoves before after hcurrent
  have hrun := (effect_act fs x action).run hx.wellFormed hfit
  rw [hmoves] at hrun
  obtain ⟨hfirst, hrest⟩ := hrun.split
  have hbefore : before.Orderly := hfirst.orderly hfs hx
  obtain ⟨node, hlive, hgen⟩ := hcurrent
  obtain ⟨outcome, tree', children, happly, happlied, _⟩ :=
    TreeView.applyFetched_current hbefore.wellFormed hlive hgen listing
  have hafter : after = tree' := congrArg Prod.snd happly
  rw [hafter]
  cases hrest with
  | cons allowed _ =>
    obtain ⟨filter, volumes, s, hfetch⟩ := allowed.2 listing rfl
    obtain ⟨_, hentries⟩ := hfs.gives.fetched hfetch
    refine ⟨fun path => ?_, fun child => happlied.stays hbefore.wellFormed⟩
    exact happlied.kept_iff hbefore hlive hentries (hfs.gives.sorted hfetch)

/-- The two children of a root stay when the root is listed again. -/
theorem endless_keeps_listed_children :
    let x := (start .everything ⟨"/net", [], "", "", [], []⟩ ()).run .endless
      [.operate (.select "/A" 3), .issue 1 false, .keepLister, .fetch 0 0]
    let after := x.tree.act
      (.apply ⟨1, 2, .real "/A", false⟩ (.ok ⟨none, [.real "/A/A", .real "/A/b"]⟩))
    x.tree.children 1 = [2, 3] ∧ after.children 1 = [2, 3] ∧ x.tree.Stays after 2 ∧
      x.tree.Stays after 3 := by
  intro x after
  have hbefore : x.tree.children 1 = [2, 3] := by decide +kernel
  have hafter : after.children 1 = [2, 3] := by decide +kernel
  obtain ⟨_, hstays⟩ := ((run_keeps_listed_children .endless FileSystem.endless_regular .everything
    ⟨"/net", [], "", "", [], []⟩ ()
    [.operate (.select "/A" 3), .issue 1 false, .keepLister, .fetch 0 0]).2 (.apply 0)).2 []
    ⟨1, 2, .real "/A", false⟩ ⟨none, [.real "/A/A", .real "/A/b"]⟩ []
    (moves_apply (by decide +kernel))
    ⟨⟨"/A", .real "/A", none, [2, 3], true, true, 2⟩, by decide +kernel, rfl⟩
  have hkept {child : NodeId} (h : child ∈ [2, 3]) : x.tree.Stays after child :=
    hstays child (hbefore ▸ h) (hafter ▸ h)
  exact ⟨hbefore, hafter, hkept (by decide), hkept (by decide)⟩

end Session

end LazyTree
