import LazyTree.Proofs.Session
import LazyTree.Proofs.Unflagged

/-!
Checks for sub-directories steer nothing. Two filesystems that differ in how they answer such
checks, and in nothing else, cannot be told apart in a session: each action has the same answer on
both, and the trees are equal but for the flags that the checks set.
-/
namespace LazyTree
variable {σ τ α : Type} {R : σ → τ → Prop}

/-- Two requests with the same answer that leave related states. -/
structure Agree (R : σ → τ → Prop) (result : α × σ) (result' : α × τ) : Prop where
  answer : result.1 = result'.1
  world : R result.2 result'.2

theorem Agree.split {result : α × σ} {result' : α × τ} (h : Agree R result result') :
    ∃ answer world world', result = (answer, world) ∧ result' = (answer, world') ∧
      R world world' :=
  ⟨result.1, result.2, result'.2, rfl, Prod.ext h.answer.symm rfl, h.world⟩

/-- In related states the filesystems give the same answers, except to checks for sub-directories,
and each request leads to related states. -/
structure FileSystem.Alike (fs : FileSystem σ) (fs' : FileSystem τ) (R : σ → τ → Prop) : Prop where
  enumerate : ∀ {s s'}, R s s' → ∀ dir, Agree R (fs.enumerate s dir) (fs'.enumerate s' dir)
  resolve : ∀ {s s'}, R s s' → ∀ path, Agree R (fs.resolve s path) (fs'.resolve s' path)
  sameDirectory : ∀ {s s'}, R s s' → ∀ a b,
    Agree R (fs.sameDirectory s a b) (fs'.sameDirectory s' a b)
  holdsDirectory : ∀ {s s'}, R s s' → ∀ dir filter,
    R (fs.holdsDirectory s dir filter).2 (fs'.holdsDirectory s' dir filter).2

variable {fs : FileSystem σ} {fs' : FileSystem τ} {s : σ} {s' : τ}

theorem listDirectory_alike (hfs : fs.Alike fs' R) (hs : R s s') (filter : NameFilter)
    (volumes : VolumeMap) (handle : Handle) (resolved : Option Handle) (dir : String) :
    Agree R (listDirectory fs filter volumes handle resolved dir s)
      (listDirectory fs' filter volumes handle resolved dir s') := by
  obtain ⟨answer, world, world', heq, heq', hworld⟩ := (hfs.enumerate hs dir).split
  unfold listDirectory
  rw [heq, heq']
  cases answer <;> exact ⟨rfl, hworld⟩

theorem fetchVisible_alike (hfs : fs.Alike fs' R) (hs : R s s') (filter : NameFilter)
    (volumes : VolumeMap) (handle : Handle) :
    Agree R (fetchVisible fs filter volumes handle s)
      (fetchVisible fs' filter volumes handle s') := by
  unfold fetchVisible
  cases handle.kind with
  | searchRoot => exact ⟨rfl, hs⟩
  | real => exact listDirectory_alike hfs hs ..
  | placeholder =>
    obtain ⟨answer, world, world', heq, heq', hworld⟩ := (hfs.resolve hs handle.path).split
    rw [heq, heq']
    cases answer with
    | error e => exact ⟨rfl, hworld⟩
    | ok found =>
      dsimp only
      split
      · exact ⟨rfl, hworld⟩
      · exact listDirectory_alike hfs hworld ..

theorem wouldListAny_alike (hfs : fs.Alike fs' R) (hs : R s s') (filter : NameFilter)
    (volumes : VolumeMap) (handle : Handle) :
    R (wouldListAny fs filter volumes handle s).2
      (wouldListAny fs' filter volumes handle s').2 := by
  unfold wouldListAny
  cases handle.kind with
  | searchRoot => exact hs
  | placeholder => exact hs
  | real =>
    dsimp only
    split
    · exact hs
    · have hworld := hfs.holdsDirectory hs handle.path filter
      generalize fs.holdsDirectory s handle.path filter = found at hworld ⊢
      generalize fs'.holdsDirectory s' handle.path filter = found' at hworld ⊢
      obtain ⟨answer, world⟩ := found
      obtain ⟨answer', world'⟩ := found'
      cases answer <;> cases answer' <;> exact hworld

namespace TreeView
variable {tree tree' : TreeView} {lister : Lister} {id : NodeId}

structure Alike (R : σ → τ → Prop) (result : α × TreeView × σ) (result' : α × TreeView × τ) :
    Prop where
  answer : result.1 = result'.1
  tree : result.2.1.unflagged = result'.2.1.unflagged
  world : R result.2.2 result'.2.2

theorem Alike.split {result : α × TreeView × σ} {result' : α × TreeView × τ}
    (h : Alike R result result') :
    ∃ answer tree tree' world world', result = (answer, tree, world) ∧
      result' = (answer, tree', world') ∧ tree.unflagged = tree'.unflagged ∧ R world world' :=
  ⟨result.1, result.2.1, result'.2.1, result.2.2, result'.2.2, rfl, Prod.ext h.answer.symm rfl,
    h.tree, h.world⟩

theorem split_of_bare {result result' : α × TreeView} (h : bare result = bare result') :
    ∃ answer tree tree', result = (answer, tree) ∧ result' = (answer, tree') ∧
      tree.unflagged = tree'.unflagged := by
  obtain ⟨hanswer, htree⟩ := Prod.mk.inj h
  exact ⟨result.1, result.2, result'.2, rfl, Prod.ext hanswer.symm rfl, htree⟩

theorem node?_alike (h : tree.unflagged = tree'.unflagged) (id : NodeId) :
    (tree.node? id = none ∧ tree'.node? id = none) ∨ ∃ node node', tree.node? id = some node ∧
      tree'.node? id = some node' ∧ node.handle = node'.handle := by
  have hmap := (blind_node? id).eq h
  cases hnode : tree.node? id with
  | none =>
    rw [hnode] at hmap
    exact .inl ⟨rfl, Option.map_eq_none_iff.mp hmap.symm⟩
  | some node =>
    rw [hnode, Option.map_some] at hmap
    obtain ⟨node', hnode', hsame⟩ := Option.map_eq_some_iff.mp hmap.symm
    exact .inr ⟨node, node', rfl, hnode', (Node.mk.inj hsame).2.1.symm⟩

theorem checkTargets_unflagged (fs : FileSystem σ) (lister : Lister)
    (targets : List (NodeId × Handle)) (tree : TreeView) (s : σ) :
    (checkTargets fs lister targets tree s).1.unflagged = tree.unflagged := by
  fun_induction checkTargets fs lister targets tree s with
  | case1 => rfl
  | case2 id handle targets tree s found s' hcheck ih => rw [ih, noteExpandable_unflagged]
  | case3 id handle targets tree s e s' hcheck ih => exact ih

theorem checkTargets_alike (hfs : fs.Alike fs' R) (hs : R s s') (lister : Lister)
    (targets : List (NodeId × Handle)) (tree tree' : TreeView) :
    R (checkTargets fs lister targets tree s).2 (checkTargets fs' lister targets tree' s').2 := by
  induction targets generalizing tree tree' s s' with
  | nil => exact hs
  | cons target targets ih =>
    obtain ⟨id, handle⟩ := target
    have hworld := wouldListAny_alike hfs hs lister.filter lister.volumes handle
    unfold checkTargets Lister.wouldList
    generalize wouldListAny fs lister.filter lister.volumes handle s = check at hworld ⊢
    generalize wouldListAny fs' lister.filter lister.volumes handle s' = check' at hworld ⊢
    obtain ⟨answer, world⟩ := check
    obtain ⟨answer', world'⟩ := check'
    cases answer <;> cases answer' <;> exact ih hworld ..

def Visit.result (v : Visit σ) : (Except Failure Application × Nat) × TreeView × σ :=
  ((v.answer, v.checked), v.tree, v.world)

theorem Visit.split {v : Visit σ} {v' : Visit τ} (h : Alike R v.result v'.result) :
    ∃ answer checked tree tree' world world', v = ⟨answer, checked, tree, world⟩ ∧
      v' = ⟨answer, checked, tree', world'⟩ ∧ tree.unflagged = tree'.unflagged ∧
      R world world' := by
  obtain ⟨hanswer, hchecked⟩ := Prod.mk.inj h.answer
  refine ⟨v.answer, v.checked, v.tree, v'.tree, v.world, v'.world, rfl, ?_, h.tree, h.world⟩
  rw [hanswer, hchecked]

theorem visitChecks_alike (hfs : fs.Alike fs' R) (hs : R s s')
    (h : tree.unflagged = tree'.unflagged) (lister : Lister) (id : NodeId) (always : Bool)
    (outcome : MergeOutcome) :
    Alike R (visitChecks fs lister id always outcome tree s).result
      (visitChecks fs' lister id always outcome tree' s').result := by
  have hexpanded : tree.arena.isExpanded id = tree'.arena.isExpanded id :=
    (blind_isExpanded id).eq h
  have htargets : tree.collapsedChildren id = tree'.collapsedChildren id :=
    (blind_collapsedChildren id).eq h
  unfold visitChecks checkCollapsed
  rw [hexpanded, htargets]
  split
  · exact ⟨rfl, (checkTargets_unflagged ..).trans (h.trans (checkTargets_unflagged ..).symm),
      checkTargets_alike hfs hs ..⟩
  · exact ⟨rfl, h, hs⟩

theorem visit_alike (hfs : fs.Alike fs' R) (hs : R s s') (h : tree.unflagged = tree'.unflagged)
    (lister : Lister) (id : NodeId) (recursive always : Bool) :
    Alike R (visit fs lister id recursive always tree s).result
      (visit fs' lister id recursive always tree' s').result := by
  obtain ⟨answer, bumped, bumped', heq, heq', hbumped⟩ :=
    split_of_bare ((blind_issue id recursive).eq h)
  unfold visit
  rw [heq, heq']
  cases answer with
  | error e => exact ⟨rfl, hbumped, hs⟩
  | ok ticket =>
    obtain ⟨fetched, world, world', heq, heq', hworld⟩ :=
      (fetchVisible_alike hfs hs lister.filter lister.volumes ticket.handle).split
    dsimp only [Lister.fetch]
    rw [heq, heq']
    obtain ⟨application, listed, listed', heq, heq', hlisted⟩ :=
      split_of_bare ((blind_applyFetched ticket fetched).eq hbumped)
    dsimp only
    rw [heq, heq']
    rcases application with e | outcome | _
    · exact ⟨rfl, hlisted, hworld⟩
    · exact visitChecks_alike hfs hworld hlisted ..
    · exact ⟨rfl, hlisted, hworld⟩

def Cascade.result (c : Cascade σ) : (List NodeId × Totals) × TreeView × σ :=
  ((c.queue, c.totals), c.tree, c.world)

theorem step_alike (hfs : fs.Alike fs' R) (lister : Lister) {c : Cascade σ} {d : Cascade τ}
    (h : Alike R c.result d.result) :
    Alike R (c.step fs lister).result (d.step fs' lister).result := by
  obtain ⟨queue, totals, tree, world⟩ := c
  obtain ⟨queue', totals', tree', world'⟩ := d
  have htree : tree.unflagged = tree'.unflagged := h.tree
  have hworld : R world world' := h.world
  obtain ⟨rfl, rfl⟩ : queue = queue' ∧ totals = totals' := Prod.mk.inj h.answer
  cases queue with
  | nil => exact ⟨rfl, htree, hworld⟩
  | cons id queue =>
    rcases node?_alike htree id with ⟨hdead, hdead'⟩ | ⟨node, node', hlive, hlive', _⟩
    · rw [step_of_dead (c := ⟨id :: queue, totals, tree, world⟩) rfl hdead,
        step_of_dead (c := ⟨id :: queue, totals, tree', world'⟩) rfl hdead']
      exact ⟨rfl, htree, hworld⟩
    · obtain ⟨answer, checked, visited, visited', next, next', heq, heq', hvisited, hnext⟩ :=
        Visit.split (visit_alike hfs hworld htree lister id true false)
      rw [step_of_live (c := ⟨id :: queue, totals, tree, world⟩) rfl hlive,
        step_of_live (c := ⟨id :: queue, totals, tree', world'⟩) rfl hlive']
      dsimp only
      rw [heq, heq']
      rcases answer with e | outcome | _ <;> exact ⟨rfl, hvisited, hnext⟩

theorem cascade_alike (hfs : fs.Alike fs' R) (lister : Lister) (count : Nat) {c : Cascade σ}
    {d : Cascade τ} (h : Alike R c.result d.result) :
    Alike R (Cascade.run fs lister count c).result (Cascade.run fs' lister count d).result := by
  induction count generalizing c d with
  | zero => exact h
  | succ count ih =>
    have hqueue : c.queue = d.queue := congrArg Prod.fst h.answer
    unfold Cascade.run
    rw [hqueue]
    split
    · exact h
    · exact ih (step_alike hfs lister h)

section
variable (hfs : fs.Alike fs' R) (hs : R s s') (h : tree.unflagged = tree'.unflagged)
include hfs hs h

theorem refreshWith_alike (id : NodeId) (recursive always : Bool) :
    Alike R (refreshWith fs id recursive always tree s)
      (refreshWith fs' id recursive always tree' s') := by
  have hlister : tree.lister = tree'.lister := blind_lister.eq h
  obtain ⟨answer, checked, visited, visited', world, world', heq, heq', hvisited, hworld⟩ :=
    Visit.split (visit_alike hfs hs h tree'.lister id recursive always)
  rw [refreshWith_eq, refreshWith_eq, hlister, heq, heq']
  rcases answer with e | outcome | _
  · exact ⟨rfl, hvisited, hworld⟩
  · have hsize : visited.size = visited'.size := blind_size.eq hvisited
    obtain ⟨hanswer, htree, hlast⟩ := @cascade_alike _ _ _ _ _ hfs tree'.lister visited'.size
      ⟨outcome.cascade, (Totals.zero.add outcome).addChecked checked, visited, world⟩
      ⟨outcome.cascade, (Totals.zero.add outcome).addChecked checked, visited', world'⟩
      ⟨rfl, hvisited, hworld⟩
    dsimp only
    rw [hsize]
    exact ⟨congrArg (fun answer => Except.ok answer.2) hanswer, htree, hlast⟩
  · exact ⟨rfl, hvisited, hworld⟩

theorem expand_alike (id : NodeId) : Alike R (expand fs id tree s) (expand fs' id tree' s') := by
  have hholds : tree.holds id = tree'.holds id := (blind_holds id).eq h
  obtain ⟨answer, refreshed, refreshed', world, world', heq, heq', htree, hworld⟩ :=
    (refreshWith_alike hfs hs ((blind_setExpanded id true).eq h) id true false).split
  have hroot : refreshed.root = refreshed'.root := blind_root.eq htree
  unfold expand refresh
  rw [hholds, heq, heq']
  split
  · cases answer with
    | ok totals => exact ⟨rfl, htree, hworld⟩
    | error e =>
      refine ⟨rfl, ?_, hworld⟩
      dsimp only
      rw [hroot]
      split
      · exact htree
      · exact (blind_setExpanded id false).eq htree
  · exact ⟨rfl, h, hs⟩

theorem useFilter_alike (filter : NameFilter) :
    Alike R (useFilter fs filter tree s) (useFilter fs' filter tree' s') := by
  have hfilter : tree.filter = tree'.filter := congrArg Lister.filter (blind_lister.eq h)
  have hroot : tree.root = tree'.root := blind_root.eq h
  have hrefiltered : ({ tree with filter := filter } : TreeView).unflagged =
      ({ tree' with filter := filter } : TreeView).unflagged :=
    congrArg (fun tree => { tree with filter := filter }) h
  by_cases hsame : tree'.filter = filter
  · simp only [useFilter, hfilter, hsame, if_true]
    exact ⟨rfl, h, hs⟩
  · cases hbound : tree'.root with
    | none =>
      have hnone : tree.root = none := hroot.trans hbound
      simp only [useFilter, hfilter, Ne.symm hsame, if_false, hnone, hbound] at hrefiltered ⊢
      exact ⟨rfl, hrefiltered, hs⟩
    | some root =>
      rw [useFilter_of_root (hroot.trans hbound) (hfilter.trans_ne hsame),
        useFilter_of_root hbound hsame]
      exact refreshWith_alike hfs hs hrefiltered root true false

theorem listLevel_alike (id root : NodeId) :
    Alike R (listLevel fs id root tree s) (listLevel fs' id root tree' s') := by
  obtain ⟨answer, refreshed, refreshed', world, world', heq, heq', htree, hworld⟩ :=
    (refreshWith_alike hfs hs h id false true).split
  unfold listLevel
  rw [heq, heq']
  cases answer with
  | ok totals => exact ⟨rfl, htree, hworld⟩
  | error e =>
    refine ⟨rfl, ?_, hworld⟩
    dsimp only
    split
    · exact blind_clear.eq htree
    · exact htree

theorem arriveAt_alike (id root : NodeId) (handle : Handle) :
    Alike R (arriveAt fs id root handle tree s) (arriveAt fs' id root handle tree' s') := by
  unfold arriveAt
  split
  · obtain ⟨answer, listed, listed', world, world', heq, heq', htree, hworld⟩ :=
      (listLevel_alike hfs hs h id root).split
    rw [heq, heq']
    cases answer with
    | ok _ => exact ⟨rfl, (blind_settle id).eq htree, hworld⟩
    | error e => exact ⟨rfl, htree, hworld⟩
  · exact ⟨rfl, (blind_settle id).eq h, hs⟩

theorem descend_alike (target : String) (root : NodeId) (budget : Nat) (current : NodeId) :
    Alike R (descend fs target root budget current tree s)
      (descend fs' target root budget current tree' s') := by
  induction budget generalizing current tree tree' s s' with
  | zero => exact ⟨rfl, h, hs⟩
  | succ budget ih =>
    unfold descend
    rcases node?_alike h current with ⟨hdead, hdead'⟩ | ⟨node, node', hlive, hlive', hhandle⟩
    · rw [hdead, hdead']
      exact ⟨rfl, h, hs⟩
    obtain ⟨same, world, world', heq, heq', hworld⟩ :=
      (hfs.sameDirectory hs node'.handle (.real target)).split
    rw [hlive, hlive']
    dsimp only
    rw [hhandle, heq, heq']
    cases same with
    | true =>
      obtain ⟨hanswer, htree, hlast⟩ := arriveAt_alike hfs hworld h current root node'.handle
      exact ⟨congrArg some hanswer, htree, hlast⟩
    | false =>
      have hway : tree.wayTo? current target = tree'.wayTo? current target :=
        (blind_wayTo? current target).eq h
      dsimp only
      rw [hway]
      cases tree'.wayTo? current target with
      | some child => exact ih hworld h child
      | none =>
        obtain ⟨answer, listed, listed', last, last', heq, heq', htree, hlast⟩ :=
          (listLevel_alike hfs hworld h current root).split
        dsimp only
        rw [heq, heq']
        cases answer with
        | error e => exact ⟨rfl, htree, hlast⟩
        | ok _ =>
          have hway : listed.wayTo? current target = listed'.wayTo? current target :=
            (blind_wayTo? current target).eq htree
          dsimp only
          rw [hway]
          cases listed'.wayTo? current target with
          | some child => exact ih hlast htree child
          | none => exact ⟨rfl, htree, hlast⟩

theorem alreadySelected_alike (target : String) :
    Agree R (alreadySelected fs target tree s) (alreadySelected fs' target tree' s') := by
  have hselected : tree.selected = tree'.selected := blind_selected.eq h
  unfold alreadySelected
  rw [hselected]
  cases tree'.selected with
  | none => exact ⟨rfl, hs⟩
  | some id =>
    dsimp only
    rcases node?_alike h id with ⟨hdead, hdead'⟩ | ⟨node, node', hlive, hlive', hhandle⟩
    · rw [hdead, hdead']
      exact ⟨rfl, hs⟩
    · obtain ⟨same, world, world', heq, heq', hworld⟩ :=
        (hfs.sameDirectory hs node'.handle (.real target)).split
      rw [hlive, hlive']
      dsimp only
      rw [hhandle, heq, heq']
      cases same <;> exact ⟨rfl, hworld⟩

theorem selectWithin_alike (budget : Nat) (path : String) :
    Alike R (selectWithin fs budget path tree s) (selectWithin fs' budget path tree' s') := by
  have hvolumes : tree.volumes = tree'.volumes := congrArg Lister.volumes (blind_lister.eq h)
  obtain ⟨selected, world, world', heq, heq', hworld⟩ :=
    (alreadySelected_alike hfs hs h (Path.normalize path)).split
  unfold selectWithin
  dsimp only
  rw [hvolumes, heq, heq']
  cases selected with
  | some id => exact ⟨rfl, h, hworld⟩
  | none =>
    obtain ⟨hbound, hroot⟩ := Prod.mk.inj
      ((blind_ensureRoot (tree'.volumes.rootOf (Path.normalize path))).eq h)
    dsimp only
    rw [hroot]
    exact descend_alike hfs hworld (congrArg (fun tree => { tree with selected := none }) hbound) ..

theorem follow_alike (changed : String) :
    Alike R (follow fs changed tree s) (follow fs' changed tree' s') := by
  have howner : tree.owner? changed = tree'.owner? changed := (blind_owner? changed).eq h
  unfold follow refresh
  rw [howner]
  cases tree'.owner? changed with
  | none => exact ⟨rfl, h, hs⟩
  | some id =>
    obtain ⟨answer, refreshed, refreshed', world, world', heq, heq', htree, hworld⟩ :=
      (refreshWith_alike hfs hs h id false false).split
    dsimp only
    rw [heq, heq']
    cases answer <;> exact ⟨rfl, htree, hworld⟩

theorem followDirs_alike (dirs : List String) (refreshed : Bool) :
    Alike R (followDirs fs dirs refreshed tree s) (followDirs fs' dirs refreshed tree' s') := by
  induction dirs generalizing refreshed tree tree' s s' with
  | nil => exact ⟨rfl, h, hs⟩
  | cons dir dirs ih =>
    obtain ⟨answer, next, next', world, world', heq, heq', htree, hworld⟩ :=
      (follow_alike hfs hs h dir).split
    unfold followDirs
    rw [heq, heq']
    cases answer <;> exact ih hworld htree _

theorem followAll_alike (changes : Touched) :
    Alike R (followAll fs changes tree s) (followAll fs' changes tree' s') := by
  cases changes with
  | root =>
    have hroot : tree.root = tree'.root := blind_root.eq h
    unfold followAll refresh
    dsimp only
    rw [hroot]
    cases tree'.root with
    | none => exact ⟨rfl, h, hs⟩
    | some root =>
      obtain ⟨answer, refreshed, refreshed', world, world', heq, heq', htree, hworld⟩ :=
        (refreshWith_alike hfs hs h root true false).split
      dsimp only
      rw [heq, heq']
      cases answer <;> exact ⟨rfl, htree, hworld⟩
  | dirs dirs =>
    obtain ⟨answer, next, next', world, world', heq, heq', htree, hworld⟩ :=
      (followDirs_alike hfs hs h dirs false).split
    unfold followAll
    dsimp only
    rw [heq, heq']
    exact ⟨rfl, htree, hworld⟩

end

end TreeView

inductive Answer where
  | selected (answer : Option (Except Failure NodeId))
  | refreshed (answer : Except Failure Totals)
  | done (answer : Except Failure Unit)
  | followed (answer : Except Failure Bool)
  | issued (answer : Except Failure Ticket)
  | fetched (answer : Except Failure Listing)
  | applied (answer : Except Failure Application)
  | nothing

def Operation.answer (fs : FileSystem σ) (tree : TreeView) (s : σ) : Operation → Answer
  | select path budget => .selected (tree.selectWithin fs budget path s).1
  | refresh id recursive => .refreshed (tree.refresh fs id recursive s).1
  | expand id => .refreshed (tree.expand fs id s).1
  | collapse id => .done (tree.collapse id).1
  | useFilter filter => .refreshed (tree.useFilter fs filter s).1
  | clear => .nothing
  | follow changed => .followed (tree.follow fs changed s).1
  | followAll changes => .followed (tree.followAll fs changes s).1

theorem Operation.perform_alike (hfs : fs.Alike fs' R) (hs : R s s') {tree tree' : TreeView}
    (h : tree.unflagged = tree'.unflagged) (operation : Operation) :
    TreeView.Alike R (operation.answer fs tree s, operation.perform fs tree s)
      (operation.answer fs' tree' s', operation.perform fs' tree' s') := by
  cases operation with
  | select path budget =>
    obtain ⟨hanswer, htree, hworld⟩ := TreeView.selectWithin_alike hfs hs h budget path
    exact ⟨congrArg Answer.selected hanswer, htree, hworld⟩
  | refresh id recursive =>
    obtain ⟨hanswer, htree, hworld⟩ := TreeView.refreshWith_alike hfs hs h id recursive false
    exact ⟨congrArg Answer.refreshed hanswer, htree, hworld⟩
  | expand id =>
    obtain ⟨hanswer, htree, hworld⟩ := TreeView.expand_alike hfs hs h id
    exact ⟨congrArg Answer.refreshed hanswer, htree, hworld⟩
  | collapse id =>
    obtain ⟨hanswer, htree⟩ := Prod.mk.inj ((TreeView.blind_collapse id).eq h)
    exact ⟨congrArg Answer.done hanswer, htree, hs⟩
  | useFilter filter =>
    obtain ⟨hanswer, htree, hworld⟩ := TreeView.useFilter_alike hfs hs h filter
    exact ⟨congrArg Answer.refreshed hanswer, htree, hworld⟩
  | clear => exact ⟨rfl, TreeView.blind_clear.eq h, hs⟩
  | follow changed =>
    obtain ⟨hanswer, htree, hworld⟩ := TreeView.follow_alike hfs hs h changed
    exact ⟨congrArg Answer.followed hanswer, htree, hworld⟩
  | followAll changes =>
    obtain ⟨hanswer, htree, hworld⟩ := TreeView.followAll_alike hfs hs h changes
    exact ⟨congrArg Answer.followed hanswer, htree, hworld⟩

/-- The same action on two filesystems; they change by themselves only to related states. -/
inductive Action.Alike (R : σ → τ → Prop) : Action σ → Action τ → Prop where
  | operate (operation : Operation) : Action.Alike R (.operate operation) (.operate operation)
  | issue (id : NodeId) (recursive : Bool) :
    Action.Alike R (.issue id recursive) (.issue id recursive)
  | keepLister : Action.Alike R .keepLister .keepLister
  | fetch (ticket lister : Nat) : Action.Alike R (.fetch ticket lister) (.fetch ticket lister)
  | apply (result : Nat) : Action.Alike R (.apply result) (.apply result)
  | applyFailure (ticket : Nat) (failure : Failure) :
    Action.Alike R (.applyFailure ticket failure) (.applyFailure ticket failure)
  | drift {world : σ} {world' : τ} (related : R world world') :
    Action.Alike R (.drift world) (.drift world')

namespace Session

def answer (fs : FileSystem σ) (x : Session σ) : Action σ → Answer
  | .operate operation => operation.answer fs x.tree x.world
  | .issue id recursive => .issued (x.tree.issue id recursive).1
  | .fetch i j =>
    match x.tickets[i]?, x.listers[j]? with
    | some ticket, some lister => .fetched (lister.fetch fs ticket x.world).1
    | _, _ => .nothing
  | .apply k =>
    match x.results[k]? with
    | some (ticket, fetched) => .applied (x.tree.applyFetched ticket fetched).1
    | none => .nothing
  | .applyFailure i failure =>
    match x.tickets[i]? with
    | some ticket => .applied (x.tree.applyFetched ticket (.error failure)).1
    | none => .nothing
  | _ => .nothing

def answers (fs : FileSystem σ) (x : Session σ) : List (Action σ) → List Answer
  | [] => []
  | action :: actions => x.answer fs action :: answers fs (x.act fs action) actions

/-- Two sessions that differ in flags, on filesystems in related states. -/
structure Alike (R : σ → τ → Prop) (x : Session σ) (y : Session τ) : Prop where
  tree : x.tree.unflagged = y.tree.unflagged
  world : R x.world y.world
  tickets : x.tickets = y.tickets
  listers : x.listers = y.listers
  results : x.results = y.results

variable {x : Session σ} {y : Session τ} {action : Action σ} {action' : Action τ}

theorem act_alike (hfs : fs.Alike fs' R) (h : Alike R x y) (haction : action.Alike R action') :
    x.answer fs action = y.answer fs' action' ∧ Alike R (x.act fs action) (y.act fs' action') := by
  obtain ⟨tree, world, tickets, listers, results⟩ := x
  obtain ⟨tree', world', tickets', listers', results'⟩ := y
  obtain ⟨htree, hworld, rfl, rfl, rfl⟩ := h
  cases haction with
  | operate operation =>
    obtain ⟨hanswer, htree, hworld⟩ := operation.perform_alike hfs hworld htree
    exact ⟨hanswer, htree, hworld, rfl, rfl, rfl⟩
  | issue id recursive =>
    obtain ⟨answer, issued, issued', heq, heq', htree⟩ :=
      TreeView.split_of_bare ((TreeView.blind_issue id recursive).eq htree)
    unfold Session.answer act
    dsimp only at heq heq' ⊢
    rw [heq, heq']
    cases answer <;> exact ⟨rfl, htree, hworld, rfl, rfl, rfl⟩
  | keepLister =>
    have hlister := TreeView.blind_lister.eq htree
    exact ⟨rfl, htree, hworld, rfl, congrArg (fun lister => listers ++ [lister]) hlister, rfl⟩
  | fetch i j =>
    unfold Session.answer act
    dsimp only
    rcases tickets[i]? with _ | ticket
    · exact ⟨rfl, htree, hworld, rfl, rfl, rfl⟩
    · rcases listers[j]? with _ | lister
      · exact ⟨rfl, htree, hworld, rfl, rfl, rfl⟩
      · obtain ⟨fetched, next, next', heq, heq', hnext⟩ :=
          (fetchVisible_alike hfs hworld lister.filter lister.volumes ticket.handle).split
        dsimp only [Lister.fetch] at heq heq' ⊢
        rw [heq, heq']
        exact ⟨rfl, htree, hnext, rfl, rfl, rfl⟩
  | apply k =>
    unfold Session.answer act
    dsimp only
    rcases results[k]? with _ | ⟨ticket, fetched⟩
    · exact ⟨rfl, htree, hworld, rfl, rfl, rfl⟩
    · obtain ⟨hanswer, htree⟩ := Prod.mk.inj ((TreeView.blind_applyFetched ticket fetched).eq htree)
      exact ⟨congrArg Answer.applied hanswer, htree, hworld, rfl, rfl, rfl⟩
  | applyFailure i failure =>
    unfold Session.answer act
    dsimp only
    rcases tickets[i]? with _ | ticket
    · exact ⟨rfl, htree, hworld, rfl, rfl, rfl⟩
    · obtain ⟨hanswer, htree⟩ :=
        Prod.mk.inj ((TreeView.blind_applyFetched ticket (.error failure)).eq htree)
      exact ⟨congrArg Answer.applied hanswer, htree, hworld, rfl, rfl, rfl⟩
  | drift related => exact ⟨rfl, htree, related, rfl, rfl, rfl⟩

theorem run_alike (hfs : fs.Alike fs' R) (h : Alike R x y) {actions : List (Action σ)}
    {actions' : List (Action τ)} (hactions : List.Forall₂ (Action.Alike R) actions actions') :
    x.answers fs actions = y.answers fs' actions' ∧
      Alike R (x.run fs actions) (y.run fs' actions') := by
  induction hactions generalizing x y with
  | nil => exact ⟨rfl, h⟩
  | cons haction _ ih =>
    obtain ⟨hanswer, hnext⟩ := act_alike hfs h haction
    obtain ⟨hanswers, hlast⟩ := ih hnext
    exact ⟨congrArg₂ List.cons hanswer hanswers, hlast⟩

/-- Whatever the checks for sub-directories answer, and whether they fail, a session takes the same
course: every action has the same answer, and after every action the trees are equal but for the
flags. -/
theorem run_checks_steer_nothing (hfs : fs.Alike fs' R) (filter : NameFilter) (volumes : VolumeMap)
    {world : σ} {world' : τ} (hworld : R world world') {actions : List (Action σ)}
    {actions' : List (Action τ)} (hactions : List.Forall₂ (Action.Alike R) actions actions') :
    (start filter volumes world).answers fs actions =
        (start filter volumes world').answers fs' actions' ∧
      ∀ n, ((start filter volumes world).run fs (actions.take n)).tree.unflagged =
        ((start filter volumes world').run fs' (actions'.take n)).tree.unflagged := by
  have hstart : Alike R (start filter volumes world) (start filter volumes world') :=
    ⟨rfl, hworld, rfl, rfl, rfl⟩
  refine ⟨(run_alike hfs hstart hactions).1, fun n => ?_⟩
  exact (run_alike hfs hstart (List.forall₂_take n hactions)).2.tree

/-- The endless filesystem, but every check fails. -/
def endlessUnchecked : FileSystem Unit :=
  { FileSystem.endless with holdsDirectory := fun s _ _ => (.error (.described .other ""), s) }

theorem endless_alike_unchecked : FileSystem.endless.Alike endlessUnchecked Eq where
  enumerate := by rintro s _ rfl dir; exact ⟨rfl, rfl⟩
  resolve := by rintro s _ rfl path; exact ⟨rfl, rfl⟩
  sameDirectory := by rintro s _ rfl a b; exact ⟨rfl, rfl⟩
  holdsDirectory := by intros; rfl

/-- The children of the root have other flags where the checks fail, and nothing else differs. -/
theorem endless_unchecked_differs_in_flags :
    let actions : List (Action Unit) := [.operate (.select "/A/b" 3), .operate (.refresh 1 true)]
    let x := (start .everything ⟨"/net", [], "", "", [], []⟩ ()).run .endless actions
    let y := (start .everything ⟨"/net", [], "", "", [], []⟩ ()).run endlessUnchecked actions
    x.tree.node? 2 ≠ y.tree.node? 2 ∧ x.tree.unflagged = y.tree.unflagged :=
  ⟨by decide +kernel,
    (run_checks_steer_nothing endless_alike_unchecked .everything ⟨"/net", [], "", "", [], []⟩ rfl
      (.cons (.operate (.select "/A/b" 3)) (.cons (.operate (.refresh 1 true)) .nil))).2 2⟩

end Session

end LazyTree
