import LazyTree.Proofs.Steady
import LazyTree.Proofs.Walk

/-!
What a visit sets right while the filesystem keeps still.
-/
namespace LazyTree
variable {σ : Type} {fs : FileSystem σ} {s t : σ}

/-- Placeholders are resolved in place, to a directory or to another placeholder. -/
def FileSystem.ResolvesInPlace (fs : FileSystem σ) : Prop :=
  ∀ {s path found}, (fs.resolve s path).1 = .ok found →
    found.path = path ∧ found.kind ≠ .searchRoot

theorem FileSystem.ResolvesInPlace.gives (h : fs.ResolvesInPlace) : fs.Gives fun _ => True where
  in_place := fun hresolve => (h hresolve).1
  resolved := fun _ => trivial
  entry := fun _ _ _ => trivial
  of_path := fun _ _ => trivial
  relabel := fun _ _ => trivial

namespace TreeView
variable {tree tree' : TreeView} {target id i : NodeId} {node n : Node} {listing : Listing}
variable {children : List NodeId} {lister : Lister} {outcome : MergeOutcome}

/-- The children of a node are what its directory lists now, and if they are shown the collapsed
ones among them, but for the exempt, say whether they could be expanded. -/
def Shows (fs : FileSystem σ) (lister : Lister) (s : σ) (exempt : List NodeId) (tree : TreeView)
    (id : NodeId) : Prop :=
  ∃ node listing, tree.arena.get? id = some node ∧
    (fetchVisible fs lister.filter lister.volumes node.handle s).1 = .ok listing ∧
    tree.childPaths id = listing.entries.map Handle.path ∧
    (node.expanded = true → ∀ child ∈ tree.children id, ∀ childNode,
      tree.arena.get? child = some childNode → childNode.expanded = false → child ∉ exempt →
      ∀ found, (wouldListAny fs lister.filter lister.volumes childNode.handle s).1 = .ok found →
        childNode.expandable = found)

/-- What a visit that listed its node leaves while the filesystem keeps still. -/
structure Visited (fs : FileSystem σ) (lister : Lister) (s : σ) (tree tree' : TreeView)
    (id : NodeId) (outcome : MergeOutcome) : Prop
    extends Stepped tree tree' id outcome.cascade where
  handles : tree'.HandlesFit fun _ => True
  same_lister : tree'.lister = tree.lister
  shows : tree'.Shows fs lister s [] id

theorem childHandles_visitChecks (fs : FileSystem σ) (lister : Lister) (id : NodeId) (always : Bool)
    (outcome : MergeOutcome) (tree : TreeView) (s : σ) (i : NodeId) :
    (visitChecks fs lister id always outcome tree s).tree.childHandles i = tree.childHandles i := by
  rw [childHandles, childHandles, children_visitChecks]
  exact List.filterMap_congr fun child _ => map_get?_visitChecks (fun _ _ => rfl) ..

theorem shows_of_visit (hs : fs.Steady s) (ht : fs.Asked s t) (hfs : fs.ResolvesInPlace)
    {listed : TreeView} (hw : listed.WellFormed) (hfit : listed.HandlesFit fun _ => True)
    (ha : Applied tree listed id node listing children)
    (hfetch : (fetchVisible fs lister.filter lister.volumes node.handle s).1 = .ok listing) :
    (visitChecks fs lister id false outcome listed t).tree.Shows fs lister s [] id := by
  have hself := ha.relisted.self
  have hnot : id ∉ listed.children id := fun hc => Nat.lt_irrefl id (hw.linked.lower hc)
  obtain ⟨again, hagain, hentries⟩ := fetchVisible_again hs hfs hfetch
  have hchildren := children_visitChecks fs lister id false outcome listed t
  have hslot {β : Type} {view : Node → β}
      (hview : ∀ (node : Node) (found : Bool),
        view { node with expandable := found } = view node) :=
    map_get?_visitChecks hview fs lister id false outcome listed t
  have hpaths : (visitChecks fs lister id false outcome listed t).tree.childPaths id =
      listing.entries.map Handle.path := by
    rw [← ha.childHandles, map_path_childHandles hfit, childPaths, childPaths, hchildren]
    exact List.filterMap_congr fun child _ => hslot (fun _ _ => rfl) child
  refine ⟨_, again, (get?_visitChecks_of_not_mem hnot ..).trans hself, hagain, ?_, ?_⟩
  · rw [hpaths, hentries]
  · intro hexpanded child hc childNode hnow hcollapsed _ found hfound
    rw [hchildren] at hc
    obtain ⟨was, hwas, _⟩ := hw.linked.owned hc
    have hsame := @hslot _ (fun node => (node.expanded, node.handle)) (fun _ _ => rfl) child
    rw [hnow, hwas] at hsame
    obtain ⟨hwasCollapsed, hhandle⟩ : childNode.expanded = was.expanded ∧
      childNode.handle = was.handle := by simpa using hsame
    rw [hcollapsed] at hwasCollapsed
    have hchecks : visitChecks fs lister id false outcome listed t =
        ⟨.ok (.applied outcome), (listed.collapsedChildren id).length,
          (checkTargets fs lister (listed.collapsedChildren id) listed t).1,
          (checkTargets fs lister (listed.collapsedChildren id) listed t).2⟩ := by
      have hshown : listed.arena.isExpanded id = true :=
        (Arena.isExpanded_of_live hself).trans hexpanded
      simp [visitChecks, checkCollapsed, hshown]
    have hmem := mem_collapsedChildren.mpr ⟨hc, was, hwas, hwasCollapsed.symm, rfl⟩
    have hnoted := get?_checkTargets_of_mem lister hs ht (collapsedChildren_nodup hw id) hmem hwas
      hwasCollapsed.symm (hhandle ▸ hfound)
    rw [hchecks] at hnow
    rw [← Option.some.inj (hnoted.symm.trans hnow)]

theorem asked_visitChecks (ht : fs.Asked s t) (lister : Lister) (id : NodeId) (always : Bool)
    (outcome : MergeOutcome) (tree : TreeView) :
    fs.Asked s (visitChecks fs lister id always outcome tree t).world := by
  obtain ⟨_, _, hasks⟩ := visitChecks_asks fs lister id always outcome tree t
  exact hasks.asked ht

theorem asked_visit (ht : fs.Asked s t) (hw : tree.WellFormed)
    (hlive : tree.arena.get? id = some node) (lister : Lister) (recursive always : Bool) :
    fs.Asked s (visit fs lister id recursive always tree t).world := by
  obtain ⟨_, _, _, _, hasks⟩ := visit_asks hw hlive fs lister recursive always t
  exact hasks.asked ht

theorem visited_of_visit (hs : fs.Steady s) (ht : fs.Asked s t) (hfs : fs.ResolvesInPlace)
    (hw : tree.WellFormed) (hfit : tree.HandlesFit fun _ => True)
    (hlive : tree.arena.get? id = some node) {lister : Lister} {outcome : MergeOutcome}
    (happlied : (visit fs lister id true false tree t).answer = .ok (.applied outcome)) :
    Visited fs lister s tree (visit fs lister id true false tree t).tree id outcome := by
  have hissued : (tree.act (.issue id true)).HandlesFit fun _ => True :=
    hfit.act hw hfs.gives trivial
  rw [act, issue_snd] at hissued
  refine ⟨stepped_of_visit hw hlive happlied, ?_, ?_, ?_⟩
  · exact (visit_run fs lister id true false tree t).handlesFit hw hfs.gives hfit
  · exact lister_visit hw fs lister id true false t
  · rcases visit_of_live hw hlive fs lister true false t with
      ⟨e, _, heq⟩ | ⟨listing, _, listed, children, hfetch, hlisted, _, heq⟩
    · simp [heq] at happlied
    · obtain ⟨hresolved, hentries⟩ := hfs.gives.fetched hfetch
      rw [fetchVisible_steady hs ht] at hfetch
      rw [heq]
      exact shows_of_visit hs (asked_fetchVisible ht ..) hfs
        (hlisted.wellFormed (hw.bumped id) (get?_bumped hlive))
        (hlisted.handlesFit hissued (get?_bumped hlive) hresolved hentries) hlisted hfetch

end TreeView

end LazyTree
