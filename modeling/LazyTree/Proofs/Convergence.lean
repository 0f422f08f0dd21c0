import LazyTree.Proofs.Visited

/-!
A recursive refresh brings what is shown in line with the filesystem: what one visit of its walk has
set right no later visit disturbs.
-/
namespace LazyTree

namespace TreeView
variable {σ : Type} {fs : FileSystem σ} {s : σ} {lister : Lister} {tree tree' : TreeView}
variable {top id i : NodeId} {visited queue queued exempt : List NodeId} {start : Arena}

/-- What the visits of a refresh have set right. -/
structure Converging (fs : FileSystem σ) (lister : Lister) (s : σ) (visited : List NodeId)
    (tree : TreeView) : Prop where
  handles : tree.HandlesFit fun _ => True
  same_lister : tree.lister = lister
  shows : ∀ i ∈ visited, tree.Shows fs lister s visited i

/-- A walk on which every visit sets right what it lists. -/
structure Cascading (fs : FileSystem σ) (lister : Lister) (s : σ) (top : NodeId) (start : Arena)
    (visited queue : List NodeId) (tree : TreeView) : Prop
    extends Walk top start [] visited queue tree, Converging fs lister s visited tree

theorem Cascading.shows_kept (h : Cascading fs lister s top start visited (id :: queue) tree)
    (hv : Stepped tree tree' id queued) (hi : i ∈ visited) :
    tree'.Shows fs lister s (visited ++ [id]) i := by
  obtain ⟨node, listing, hlive, hfetch, hpaths, hchecked⟩ := h.shows i hi
  obtain ⟨_, hevolves⟩ := hv.evolves
  have hchildren := h.children_kept hv hi
  refine ⟨node, listing, h.kept hv (List.mem_append_left _ hi) hlive, hfetch, ?_, ?_⟩
  · rw [childPaths_eq h.wellFormed hv.wellFormed hevolves hchildren, hpaths]
  · intro hexpanded child hc childNode hnow hcollapsed hexempt found hfound
    rw [hchildren] at hc
    simp only [List.mem_append, List.mem_singleton, not_or] at hexempt
    obtain ⟨was, hwas, _⟩ := h.wellFormed.linked.owned hc
    have hsame := hv.untouched hwas (h.not_under_next hexempt.2 (.inr ⟨i, hi, hc⟩))
    obtain rfl := Option.some.inj (hnow.symm.trans hsame)
    exact hchecked hexpanded child hc childNode hwas hcollapsed hexempt.1 found hfound

theorem Shows.mono (h : tree.Shows fs lister s exempt id) (hsub : ∀ i ∈ exempt, i ∈ visited) :
    tree.Shows fs lister s visited id := by
  obtain ⟨node, listing, hlive, hfetch, hpaths, hchecked⟩ := h
  refine ⟨node, listing, hlive, hfetch, hpaths, ?_⟩
  intro hexpanded child hc childNode hnow hcollapsed hexempt
  exact hchecked hexpanded child hc childNode hnow hcollapsed fun hmem => hexempt (hsub child hmem)

/-- The next visit sets its own node right and disturbs none that is right already. -/
theorem kept_converging (hs : fs.Steady s) (hfs : fs.ResolvesInPlace) (lister : Lister) :
    KeptByListing fs lister fun visited tree t =>
      Converging fs lister s visited tree ∧ fs.Asked s t := by
  intro top start visited queue tree t id node outcome h hlive ⟨hright, hasked⟩ v happlied
  have hv := visited_of_visit hs hasked hfs h.wellFormed hright.handles hlive happlied
  refine ⟨⟨hv.handles, hv.same_lister.trans hright.same_lister, fun i hi => ?_⟩,
    asked_visit hasked h.wellFormed hlive lister true false⟩
  rcases List.mem_append.mp hi with hi | hi
  · exact Cascading.shows_kept ⟨h, hright⟩ hv.toStepped hi
  · obtain rfl := List.mem_singleton.mp hi
    exact hv.shows.mono (by simp)

theorem cascading_of_refresh (hs : fs.Steady s) (hfs : fs.ResolvesInPlace) (hw : tree.WellFormed)
    (hfit : tree.HandlesFit fun _ => True) {totals : Totals} {s' : σ}
    (h : refresh fs id true tree s = (.ok totals, tree', s')) (hfailed : totals.failed = 0) :
    (∃ start, Cascading fs tree.lister s id start
      (issuedBy (refreshMoves fs id true false tree s)) [] tree') ∧ fs.Asked s s' := by
  obtain ⟨start, hwalk, hright, hasked⟩ :=
    walk_of_full_refresh (kept_converging hs hfs tree.lister) hw h hfailed fun hlive happlied => by
      have hv := visited_of_visit hs .nothing hfs hw hfit hlive happlied
      refine ⟨⟨hv.handles, hv.same_lister, fun i hi => ?_⟩,
        asked_visit .nothing hw hlive tree.lister true false⟩
      obtain rfl := List.mem_singleton.mp hi
      exact hv.shows.mono (by simp)
  exact ⟨⟨start, hwalk, hright⟩, hasked⟩

end TreeView

namespace Session
variable {σ : Type} {fs : FileSystem σ} {x : Session σ}

/-- The filesystem keeps still while the refresh runs; before that it may change. -/
theorem run_refresh_converges (fs : FileSystem σ) (hfs : fs.ResolvesInPlace) (filter : NameFilter)
    (volumes : VolumeMap) (world : σ) (actions : List (Action σ)) :
    let x := (start filter volumes world).run fs actions
    fs.Steady x.world → ∀ id totals tree s,
      x.tree.refresh fs id true x.world = (.ok totals, tree, s) → totals.failed = 0 →
      TreeView.Trail fs x.tree x.world (x.tree.refreshMoves fs id true false x.world) tree s ∧
      ∀ covered, tree.Covered id covered →
        ∃ node listing, tree.node? covered = some node ∧
          (fetchVisible fs tree.filter tree.volumes node.handle s).1 = .ok listing ∧
          (tree.children covered).map tree.pathOf? =
            listing.entries.map (fun listed => some listed.path) ∧
          (node.expanded = true → ∀ child ∈ tree.children covered, ∀ childNode,
            tree.node? child = some childNode → childNode.expanded = false →
            child ∉ issuedBy (x.tree.refreshMoves fs id true false x.world) →
            ∀ found, (wouldListAny fs tree.filter tree.volumes childNode.handle s).1 = .ok found →
              childNode.expandable = found) := by
  intro x hs id totals tree s hrefresh hfailed
  have hstart := wellFormed_start filter volumes world
  have hw : x.tree.WellFormed := wellFormed_run hstart fs actions
  have htrail := TreeView.refresh_trail hw fs id true x.world
  rw [hrefresh] at htrail
  refine ⟨htrail, fun covered hcovered => ?_⟩
  have hfit : x.Fits fs fun _ => True := fits_run hstart hfs.gives
    (fits_start fs _ filter volumes world) actions
  obtain ⟨⟨_, hcascading⟩, hasked⟩ :=
    TreeView.cascading_of_refresh hs hfs hw hfit.handles hrefresh hfailed
  obtain ⟨node, listing, hlive, hfetch, hpaths, hchecked⟩ :=
    hcascading.shows covered (hcascading.visited_of_covered hcovered)
  rw [← hcascading.same_lister] at hfetch hchecked
  refine ⟨node, listing, hlive, ?_, ?_, ?_⟩
  · exact (fetchVisible_steady hs hasked ..).trans hfetch
  · rw [TreeView.map_pathOf?_children hcascading.wellFormed, hpaths, List.map_map]
    rfl
  · intro hexpanded child hc childNode hnow hcollapsed hrefreshed found hfound
    rw [wouldListAny_steady hs hasked] at hfound
    exact hchecked hexpanded child hc childNode hnow hcollapsed hrefreshed found hfound

theorem endless_resolvesInPlace : FileSystem.endless.ResolvesInPlace := by
  intro s path found h
  obtain rfl : _ = found := Except.ok.inj h
  exact ⟨rfl, by simp [Handle.real, Handle.ofPath]⟩

theorem endless_steady : FileSystem.endless.Steady () where
  enumerate := fun _ _ => rfl
  resolve := fun _ _ => rfl
  holdsDirectory := fun _ _ _ => rfl

/-- A refresh of the root also covers its expanded child. -/
theorem endless_refresh_converges :
    let x := (start .everything ⟨"/net", [], "", "", [], []⟩ ()).run .endless
      [.operate (.select "/A" 1), .operate (.expand 3)]
    let tree := (x.tree.refresh .endless 1 true ()).2.1
    ∃ node listing, tree.node? 3 = some node ∧
      (fetchVisible .endless tree.filter tree.volumes node.handle ()).1 = .ok listing ∧
      (tree.children 3).map tree.pathOf? =
        listing.entries.map (fun listed => some listed.path) := by
  intro x tree
  obtain ⟨_, hcovers⟩ := run_refresh_converges .endless
    endless_resolvesInPlace .everything ⟨"/net", [], "", "", [], []⟩ ()
    [.operate (.select "/A" 1), .operate (.expand 3)] endless_steady 1 ⟨2, 0, 0, 0, false, 3⟩ _ _
    (Prod.ext (by decide +kernel) rfl) rfl
  obtain ⟨node, listing, hlive, hfetch, hpaths, _⟩ :=
    hcovers 3 (.child .self (by decide +kernel) (by decide +kernel))
  exact ⟨node, listing, hlive, hfetch, hpaths⟩

end Session

end LazyTree
