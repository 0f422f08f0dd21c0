import LazyTree.Proofs.Levels
import LazyTree.Proofs.Scope
import LazyTree.Proofs.Structure

/-!
The volume of the selection. A tree is bound to the volume of a path before the path is selected,
and binding it anew drops the selection, so the selected node lies on the volume that is shown.
Where placeholders may resolve elsewhere, or directories with different paths count as one, this
can fail.
-/
namespace LazyTree
variable {σ : Type} {fs : FileSystem σ} {s s' : σ}

namespace TreeView
variable {tree tree' listed last : TreeView} {id root current : NodeId} {node : Node} {move : Move}
variable {target path : String} {moves : List Move}

/-- The tree is bound to the volume of the selected path. -/
def OnVolume (tree : TreeView) : Prop :=
  ∀ path, tree.selectedPath? = some path → tree.rootPath? = some (tree.volumes.rootOf path)

theorem onVolume_of_none (h : tree.selected = none) : tree.OnVolume := by
  simp [OnVolume, selectedPath?, h]

theorem OnVolume.of_kept (h : tree.OnVolume) (hw : tree.WellFormed) (hw' : tree'.WellFormed)
    {issued : List NodeId} (hevolves : Arena.Evolves issued tree.arena tree'.arena)
    (hroot : tree'.root = tree.root) (hvolumes : tree'.volumes = tree.volumes)
    (hselected : ∀ id, tree'.selected = some id → tree.selected = some id) : tree'.OnVolume := by
  intro path hpath
  obtain ⟨id, hid, hat⟩ := Option.bind_eq_some_iff.mp hpath
  obtain ⟨now, hnow, rfl⟩ := Option.map_eq_some_iff.mp hat
  obtain ⟨was, hwas⟩ := hw.selected_live (hselected id hid)
  have hbefore : tree.selectedPath? = some now.path := by
    rw [selectedPath?, hselected id hid, Option.bind_some, pathOf?, node?, hwas]
    exact congrArg some (hevolves.lived hwas hnow).1.symm
  rw [rootPath?_eq hw hw' hevolves hroot, hvolumes]
  exact h _ hbefore

theorem selected_before_act (hw : tree.WellFormed) (hmove : ∀ id, move ≠ .settle id)
    (h : (tree.act move).selected = some id) : tree.selected = some id := by
  cases move with
  | issue target recursive =>
    rw [TreeView.act, issue_snd] at h
    exact h
  | apply ticket fetched =>
    rcases applyFetched_cases hw ticket fetched with hsame | ⟨_, _, _, _, _, _, happlied⟩
    · rwa [TreeView.act, hsame] at h
    · exact (happlied.selected h).1
  | settle target => exact absurd rfl (hmove target)
  | clear => simp [TreeView.act, clear] at h
  | bindTo top => simp [TreeView.act, bindTo, clear, TreeView.setExpanded, TreeView.modify] at h
  | deselect => simp [TreeView.act] at h
  | _ => exact h

theorem OnVolume.act (h : tree.OnVolume) (hw : tree.WellFormed) (hmove : ∀ id, move ≠ .settle id) :
    (tree.act move).OnVolume := by
  have hw' : (tree.act move).WellFormed := hw.act_of_live fun id heq => absurd heq (hmove id)
  have hkept (hroot : (tree.act move).root = tree.root)
      (hvolumes : (tree.act move).volumes = tree.volumes) : (tree.act move).OnVolume :=
    h.of_kept hw hw' (evolves_act hw move) hroot hvolumes fun _ => selected_before_act hw hmove
  have hrefreshes (hrefreshes : move.refreshes = true) : (tree.act move).OnVolume := by
    have hframe := frame_act hw hrefreshes
    exact hkept (congrArg Prod.fst hframe) (congrArg (fun frame => frame.2.volumes) hframe)
  cases move with
  | issue _ _ | apply _ _ | note _ _ => exact hrefreshes rfl
  | setExpanded _ _ | useFilter _ => exact hkept rfl rfl
  | settle id => exact absurd rfl (hmove id)
  | clear | bindTo _ | deselect => exact onVolume_of_none rfl

theorem OnVolume.setExpanded (h : tree.OnVolume) (hw : tree.WellFormed) (id : NodeId)
    (expanded : Bool) : (tree.setExpanded id expanded).OnVolume :=
  @OnVolume.act tree (.setExpanded id expanded) h hw (by simp)

theorem ne_settle_of_still (h : move.still = true) (id : NodeId) : move ≠ .settle id := by
  rintro rfl
  cases h

theorem OnVolume.foldl (h : tree.OnVolume) (hw : tree.WellFormed)
    (hmoves : moves.all Move.still = true) : (moves.foldl TreeView.act tree).OnVolume :=
  (foldl_still hw (fun hw hmove h => h.act hw (ne_settle_of_still hmove)) hmoves h).1

theorem OnVolume.expand (h : tree.OnVolume) (hw : tree.WellFormed) (fs : FileSystem σ)
    (id : NodeId) (s : σ) : (expand fs id tree s).2.1.OnVolume := by
  have hw' := hw.setExpanded id true
  have hcourse := refresh_course hw' fs id true s
  have hrefreshed : (refresh fs id true (tree.setExpanded id true) s).2.1.OnVolume := by
    rw [hcourse.run.last_eq]
    exact (h.setExpanded hw id true).foldl hw' (still_refreshMoves ..)
  rcases expand_cases hw fs id s with hsame | ⟨heq, _⟩ | ⟨heq, _⟩
  · rwa [hsame]
  · rwa [heq]
  · rw [heq]
    exact hrefreshed.setExpanded (hcourse.run.wellFormed hw') id false

theorem OnVolume.collapse (h : tree.OnVolume) (hw : tree.WellFormed) (id : NodeId) :
    (tree.collapse id).2.OnVolume := by
  unfold TreeView.collapse
  split
  · exact h
  · split
    · exact h.setExpanded hw id false
    · exact h

theorem Run.unselected (h : Run fs tree moves last) (hw : tree.WellFormed)
    (hmoves : moves.all Move.still = true) (hnone : tree.selected = none) :
    last.selected = none := by
  rw [h.last_eq]
  refine (foldl_still (motive := fun tree => tree.selected = none) hw ?_ hmoves hnone).1
  intro tree move hw hmove hnone
  refine Option.eq_none_iff_forall_ne_some.mpr fun id hid => ?_
  simp [selected_before_act hw (ne_settle_of_still hmove) hid] at hnone

theorem still_listLevelMoves (fs : FileSystem σ) (id root : NodeId) (tree : TreeView) (s : σ) :
    (listLevelMoves fs id root tree s).all Move.still = true :=
  all_of_all (still_of_quiet ∘ quiet_of_lists) (lists_listLevelMoves ..)

theorem selected_of_listLevel (hw : tree.WellFormed) (hnone : tree.selected = none)
    {answer : Except Failure Unit} (hlist : listLevel fs current root tree s = (answer, last, s')) :
    last.selected = none := by
  have hrun := (listLevel_trail hw fs current root s).run
  rw [hlist] at hrun
  exact hrun.unselected hw (still_listLevelMoves ..) hnone

theorem pathOf?_settle (tree : TreeView) (id i : NodeId) :
    (tree.settle id).pathOf? i = tree.pathOf? i := map_get?_expandUpwards (fun _ => rfl) ..

theorem rootPath?_settle (tree : TreeView) (id : NodeId) :
    (tree.settle id).rootPath? = tree.rootPath? :=
  congrArg (tree.root.bind ·) (funext fun i => pathOf?_settle tree id i)

/-- A tree with a selection stands at the target and still has its root. -/
def Lands (tree last : TreeView) (target : String) : Prop :=
  ∀ path, last.selectedPath? = some path →
    path = target ∧ last.rootPath? = tree.rootPath? ∧ last.volumes = tree.volumes

theorem lands_of_none (h : last.selected = none) : tree.Lands last target := by
  simp [Lands, selectedPath?, h]

theorem lands_settle (hlive : tree.node? id = some node) (hpath : node.path = target) :
    tree.Lands (tree.settle id) target := by
  intro path hselected
  have hid : (tree.settle id).selectedPath? = tree.pathOf? id := pathOf?_settle tree id id
  rw [hid, pathOf?, hlive] at hselected
  exact ⟨(Option.some.inj hselected).symm.trans hpath, rootPath?_settle tree id, rfl⟩

theorem Lands.of_listLevel (hw : tree.WellFormed)
    (hlist : listLevel fs current root tree s = (.ok (), listed, s'))
    (h : listed.Lands last target) : tree.Lands last target := by
  have hrun := (listLevel_ok_trail hw hlist).run
  have hframe := hrun.frame hw (refreshes_refreshMoves ..)
  have hroot := rootPath?_eq hw (hrun.wellFormed hw) (hrun.evolves hw) (root_of_frame hframe)
  intro path hpath
  obtain ⟨heq, htop, hvolumes⟩ := h path hpath
  exact ⟨heq, htop.trans hroot, hvolumes.trans (congrArg (fun frame => frame.2.volumes) hframe)⟩

theorem arriveAt_lands (hw : tree.WellFormed) (hnone : tree.selected = none)
    (hlive : tree.node? current = some node) (hpath : node.path = target) {handle : Handle}
    {answer : Except Failure NodeId}
    (harrive : arriveAt fs current root handle tree s = (answer, last, s')) :
    tree.Lands last target := by
  obtain rfl : _ = last := congrArg (fun result => result.2.1) harrive
  unfold arriveAt
  split
  · cases hlist : listLevel fs current root tree s with
    | mk answer rest =>
      obtain ⟨listed, world⟩ := rest
      cases answer with
      | error e => exact lands_of_none (selected_of_listLevel hw hnone hlist)
      | ok _ =>
        obtain ⟨now, hnow, hsame⟩ := path_of_listLevel hw hlive hlist
        exact .of_listLevel hw hlist (lands_settle hnow (hsame.trans hpath))
  · exact lands_settle hlive hpath

/-- Where directories are told apart by their paths, only a selected node that stands at the target
is kept, and the comparison changes nothing. -/
theorem alreadySelected_cases (hpaths : fs.sameDirectory = FileSystem.samePath)
    (hfit : tree.HandlesFit fun _ => True) (target : String) (s : σ) :
    alreadySelected fs target tree s = (none, s) ∨
      ∃ id, tree.selected = some id ∧ tree.pathOf? id = some target ∧
        alreadySelected fs target tree s = (some id, s) := by
  unfold alreadySelected
  cases tree.selected with
  | none => exact .inl rfl
  | some id =>
    dsimp only
    cases hlive : tree.node? id with
    | none => exact .inl rfl
    | some node =>
      have hcompare : fs.sameDirectory s node.handle (.real target) =
          (decide (node.path = target), s) := by
        rw [hpaths, ← (hfit _ _ hlive).1]
        rfl
      dsimp only
      rw [hcompare]
      by_cases hpath : node.path = target
      · refine .inr ⟨id, rfl, ?_, by simp [hpath]⟩
        rw [pathOf?, hlive]
        exact congrArg some hpath
      · exact .inl (by simp [hpath])

/-- Where directories are told apart by their paths, a selection stands at the path selected. -/
theorem descend_lands (hpaths : fs.sameDirectory = FileSystem.samePath)
    (hgives : fs.Gives fun _ => True) (hw : tree.WellFormed)
    (hfit : tree.HandlesFit fun _ => True) (hnone : tree.selected = none) (budget : Nat) :
    tree.Lands (descend fs target root budget current tree s).2.1 target := by
  fun_induction descend fs target root budget current tree s with
  | case1 => exact lands_of_none hnone
  | case2 => exact lands_of_none hnone
  | case3 budget current tree s node hlive world hsame answer last s' harrive =>
    have hpath : node.path = target := by
      rw [hpaths, FileSystem.samePath, Prod.mk.injEq, decide_eq_true_eq] at hsame
      exact (hfit _ _ hlive).1.symm.trans hsame.1
    exact arriveAt_lands hw hnone hlive hpath harrive
  | case4 budget current tree s node hlive world hsame child hway ih => exact ih hw hfit hnone
  | case5 budget current tree s node hlive world hsame hway e last s' hlist =>
    exact lands_of_none (selected_of_listLevel hw hnone hlist)
  | case6 budget current tree s node hlive world hsame hway _ listed world' hlist child _ ih =>
    have hrun := (listLevel_ok_trail hw hlist).run
    have hnothing := selected_of_listLevel hw hnone hlist
    exact .of_listLevel hw hlist (ih (hrun.wellFormed hw) (hrun.handlesFit hw hgives hfit) hnothing)
  | case7 budget current tree s node hlive world hsame hway _ listed world' hlist =>
    exact lands_of_none (selected_of_listLevel hw hnone hlist)

theorem OnVolume.select (h : tree.OnVolume) (hpaths : fs.sameDirectory = FileSystem.samePath)
    (hgives : fs.Gives fun _ => True) (hw : tree.WellFormed)
    (hfit : tree.HandlesFit fun _ => True) (budget : Nat) (path : String) (s : σ) :
    (selectWithin fs budget path tree s).2.1.OnVolume := by
  unfold selectWithin
  dsimp only
  rcases alreadySelected fs (Path.normalize path) tree s with ⟨_ | id, world⟩
  · dsimp only
    generalize hroot : tree.volumes.rootOf (Path.normalize path) = top
    have hbound := (ensureRoot_trail fs tree top world).run
    have hwbound := hbound.wellFormed hw
    have hfitbound := hbound.handlesFit hw hgives hfit
    have hlands := @descend_lands _ fs world { (tree.ensureRoot top).1 with selected := none }
      (tree.ensureRoot top).2 (tree.ensureRoot top).2 (Path.normalize path) hpaths hgives
      (hwbound.congr (fun _ => rfl) rfl (by simp)) hfitbound rfl budget
    intro found hfound
    obtain ⟨rfl, htop, hvolumes⟩ := hlands found hfound
    rw [htop, hvolumes]
    change (tree.ensureRoot top).1.rootPath? = some ((tree.ensureRoot top).1.volumes.rootOf _)
    have hkept := congrArg Lister.volumes (lister_ensureRoot tree top)
    rw [rootPath?_ensureRoot, show (tree.ensureRoot top).1.volumes = tree.volumes from hkept, hroot]
  · exact h

end TreeView

namespace Session
variable {x : Session σ}

theorem onVolume_act (hpaths : fs.sameDirectory = FileSystem.samePath)
    (hgives : fs.Gives fun _ => True) (hw : x.tree.WellFormed) (hfit : x.Fits fs fun _ => True)
    (h : x.tree.OnVolume) (action : Action σ) : (x.act fs action).tree.OnVolume := by
  rcases still_moves_or fs x action with hstill | ⟨path, budget, rfl⟩ | ⟨id, rfl⟩ | ⟨id, rfl⟩
  · rw [(effect_act fs x action).eq_foldl hw]
    exact h.foldl hw hstill
  · exact h.select hpaths hgives hw hfit.handles budget path x.world
  · exact h.expand hw fs id x.world
  · exact h.collapse hw id

theorem onVolume_run (hpaths : fs.sameDirectory = FileSystem.samePath)
    (hgives : fs.Gives fun _ => True) (hw : x.tree.WellFormed) (hfit : x.Fits fs fun _ => True)
    (h : x.tree.OnVolume) (actions : List (Action σ)) : (x.run fs actions).tree.OnVolume := by
  induction actions generalizing x with
  | nil => exact h
  | cons action actions ih =>
    exact ih ((effect_act fs x action).wellFormed hw) (fits_act hw hgives hfit action)
      (onVolume_act hpaths hgives hw hfit h action)

/-- The selected node can be reached from the root, and the root is that of the node's volume. So a
selection that stays where it is stays on the volume of its target. -/
theorem run_selects_on_volume (fs : FileSystem σ)
    (hpaths : fs.sameDirectory = FileSystem.samePath)
    (hplace : ∀ s path found, (fs.resolve s path).1 = .ok found → found.path = path)
    (filter : NameFilter) (volumes : VolumeMap) (world : σ) (actions : List (Action σ)) :
    let x := (start filter volumes world).run fs actions
    (∀ id, x.tree.selected = some id → ∃ root path, x.tree.root = some root ∧
      x.tree.pathOf? id = some path ∧ x.tree.rootPath? = some (volumes.rootOf path) ∧
      x.tree.arena.Reaches root id) ∧
    ∀ path id, (x.tree.alreadySelected fs (Path.normalize path) x.world).1 = some id →
      x.tree.pathOf? id = some (Path.normalize path) ∧
      x.tree.rootPath? = some (volumes.rootOf (Path.normalize path)) := by
  intro x
  have hgives : fs.Gives fun _ => True :=
    ⟨hplace _ _ _, fun _ => trivial, fun _ _ _ => trivial, fun _ _ => trivial,
      fun _ _ => trivial⟩
  have hstart := wellFormed_start filter volumes world
  have hw : x.tree.WellFormed := wellFormed_run hstart fs actions
  have hfit := fits_start fs (fun _ => True) filter volumes world
  have hon : x.tree.OnVolume :=
    onVolume_run hpaths hgives hstart hfit (TreeView.onVolume_of_none rfl) actions
  have hhandles : x.tree.HandlesFit fun _ => True := (fits_run hstart hgives hfit actions).handles
  have hvolumes : x.tree.volumes = volumes := volumes_run fs filter volumes world actions
  have hroot {id : NodeId} {path : String} (hid : x.tree.selected = some id)
      (hpath : x.tree.pathOf? id = some path) :
      x.tree.rootPath? = some (volumes.rootOf path) := by
    rw [← hvolumes]
    exact hon path (by rw [TreeView.selectedPath?, hid, Option.bind_some, hpath])
  constructor
  · intro id hid
    obtain ⟨node, hlive⟩ := hw.selected_live hid
    obtain ⟨root, hbound, hu⟩ := hw.under_root hlive
    have hpath : x.tree.pathOf? id = some node.path := congrArg (Option.map Node.path) hlive
    exact ⟨root, node.path, hbound, hpath, hroot hid hpath,
      (hw.reaches_iff_live hbound).mpr ⟨node, hlive⟩⟩
  · intro path id hsame
    rcases TreeView.alreadySelected_cases hpaths hhandles (Path.normalize path) x.world with
      heq | ⟨selected, hid, hpath, heq⟩
    · simp [heq] at hsame
    · obtain rfl : selected = id := by simpa [heq] using hsame
      exact ⟨hpath, hroot hid hpath⟩

/-- The tree has left the first volume; a listing that was fetched for it comes too late. -/
theorem endless_selects_on_volume :
    let volumes : VolumeMap := ⟨"/net", [], "", "", [], ["/mnt"]⟩
    let x := (start .everything volumes ()).run .endless
      [.operate (.select "/A/b" 2), .issue 1 false, .keepLister, .fetch 0 0,
        .operate (.select "/mnt/A/b" 2), .apply 0]
    (x.tree.selected = some 6 ∧ ∃ root path, x.tree.root = some root ∧
      x.tree.pathOf? 6 = some path ∧ x.tree.rootPath? = some (volumes.rootOf path) ∧
      x.tree.arena.Reaches root 6) ∧
    (x.tree.alreadySelected .endless (Path.normalize "/mnt/A//b") ()).1 = some 6 ∧
      x.tree.rootPath? = some (volumes.rootOf (Path.normalize "/mnt/A//b")) := by
  have hplace (s : Unit) (path : String) (found : Handle)
      (h : (FileSystem.endless.resolve s path).1 = .ok found) : found.path = path :=
    Except.ok.inj h ▸ rfl
  have hbinds := run_selects_on_volume .endless rfl hplace .everything
    ⟨"/net", [], "", "", [], ["/mnt"]⟩ ()
    [.operate (.select "/A/b" 2), .issue 1 false, .keepLister, .fetch 0 0,
      .operate (.select "/mnt/A/b" 2), .apply 0]
  exact ⟨⟨by decide +kernel, hbinds.1 6 (by decide +kernel)⟩, by decide +kernel,
    (hbinds.2 "/mnt/A//b" 6 (by decide +kernel)).2⟩

end Session

end LazyTree
