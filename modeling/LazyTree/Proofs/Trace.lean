import LazyTree.Proofs.Visit
import LazyTree.TreeView.Changes

/-!
The moves that each operation makes, in their order. Each definition follows its operation and asks
the filesystem what the operation asks it; the tree after the operation is the tree after its moves.
-/
namespace LazyTree.TreeView
variable {σ : Type} {fs : FileSystem σ} {lister : Lister} {tree mid last : TreeView}
variable {s s' s'' : σ}
variable {move : Move} {moves later : List Move}

def checkMoves (fs : FileSystem σ) (lister : Lister) : List (NodeId × Handle) → σ → List Move
  | [], _ => []
  | (id, handle) :: targets, s =>
    match lister.wouldList fs handle s with
    | (.ok found, s') => .note id found :: checkMoves fs lister targets s'
    | (.error _, s') => checkMoves fs lister targets s'

/-- The checks that follow a listing that was applied. -/
def appliedMoves (fs : FileSystem σ) (lister : Lister) (id : NodeId) (always : Bool) :
    Except Failure Application × TreeView → σ → List Move
  | (.ok (.applied _), tree), s =>
    if always || tree.arena.isExpanded id then checkMoves fs lister (tree.collapsedChildren id) s
    else []
  | _, _ => []

def visitMoves (fs : FileSystem σ) (lister : Lister) (id : NodeId) (recursive always : Bool)
    (tree : TreeView) (s : σ) : List Move :=
  match tree.issue id recursive with
  | (.error _, _) => []
  | (.ok ticket, tree) =>
    let (fetched, s) := lister.fetch fs ticket s
    .issue id recursive :: .apply ticket fetched ::
      appliedMoves fs lister id always (tree.applyFetched ticket fetched) s

def cascadeMoves (fs : FileSystem σ) (lister : Lister) : Nat → Cascade σ → List Move
  | 0, _ => []
  | count + 1, c =>
    match c.queue with
    | [] => []
    | id :: _ =>
      visitMoves fs lister id true false c.tree c.world ++
        cascadeMoves fs lister count (c.step fs lister)

def afterVisitMoves (fs : FileSystem σ) (lister : Lister) (v : Visit σ) : List Move :=
  match v.answer with
  | .ok (.applied outcome) =>
    cascadeMoves fs lister v.tree.size
      ⟨outcome.cascade, (Totals.zero.add outcome).addChecked v.checked, v.tree, v.world⟩
  | _ => []

def refreshMoves (fs : FileSystem σ) (id : NodeId) (recursive always : Bool) (tree : TreeView)
    (s : σ) : List Move :=
  visitMoves fs tree.lister id recursive always tree s ++
    afterVisitMoves fs tree.lister (visit fs tree.lister id recursive always tree s)

def expandMoves (fs : FileSystem σ) (id : NodeId) (tree : TreeView) (s : σ) : List Move :=
  if tree.holds id then
    .setExpanded id true :: (refreshMoves fs id true false (tree.setExpanded id true) s ++
      match refresh fs id true (tree.setExpanded id true) s with
      | (.ok _, _, _) => []
      | (.error _, tree, _) => if tree.root = some id then [] else [.setExpanded id false])
  else []

def collapseMoves (tree : TreeView) (id : NodeId) : List Move :=
  if tree.root = some id then []
  else if tree.holds id then [.setExpanded id false]
  else []

def useFilterMoves (fs : FileSystem σ) (filter : NameFilter) (tree : TreeView) (s : σ) :
    List Move :=
  if filter = tree.filter then []
  else
    .useFilter filter ::
      match tree.root with
      | some root => refreshMoves fs root true false { tree with filter := filter } s
      | none => []

def listLevelMoves (fs : FileSystem σ) (id root : NodeId) (tree : TreeView) (s : σ) :
    List Move :=
  refreshMoves fs id false true tree s ++
    match refreshWith fs id false true tree s with
    | (.ok _, _, _) => []
    | (.error _, _, _) => if id = root then [.clear] else []

def arriveMoves (fs : FileSystem σ) (id root : NodeId) (handle : Handle) (tree : TreeView)
    (s : σ) : List Move :=
  if handle.isUnresolved then
    listLevelMoves fs id root tree s ++
      match listLevel fs id root tree s with
      | (.ok _, _, _) => [.settle id]
      | (.error _, _, _) => []
  else [.settle id]

def descendMoves (fs : FileSystem σ) (target : String) (root : NodeId) :
    Nat → NodeId → TreeView → σ → List Move
  | 0, _, _, _ => []
  | budget + 1, current, tree, s =>
    match tree.node? current with
    | none => []
    | some node =>
      match fs.sameDirectory s node.handle (.real target) with
      | (true, s) => arriveMoves fs current root node.handle tree s
      | (false, s) =>
        match tree.wayTo? current target with
        | some child => descendMoves fs target root budget child tree s
        | none =>
          listLevelMoves fs current root tree s ++
            match listLevel fs current root tree s with
            | (.error _, _, _) => []
            | (.ok _, tree, s) =>
              match tree.wayTo? current target with
              | some child => descendMoves fs target root budget child tree s
              | none => []

def ensureRootMoves (tree : TreeView) (top : String) : List Move :=
  if tree.rootPath? = some top then [] else [.bindTo top]

def selectMoves (fs : FileSystem σ) (budget : Nat) (path : String) (tree : TreeView) (s : σ) :
    List Move :=
  let target := Path.normalize path
  match alreadySelected fs target tree s with
  | (some _, _) => []
  | (none, s) =>
    let top := tree.volumes.rootOf target
    let (bound, root) := tree.ensureRoot top
    ensureRootMoves tree top ++
      .deselect :: descendMoves fs target root budget root { bound with selected := none } s

def followMoves (fs : FileSystem σ) (changed : String) (tree : TreeView) (s : σ) : List Move :=
  match tree.owner? changed with
  | none => []
  | some id => refreshMoves fs id false false tree s

def followDirsMoves (fs : FileSystem σ) : List String → TreeView → σ → List Move
  | [], _, _ => []
  | dir :: dirs, tree, s =>
    let (_, next, s') := follow fs dir tree s
    followMoves fs dir tree s ++ followDirsMoves fs dirs next s'

def followAllMoves (fs : FileSystem σ) (changes : Touched) (tree : TreeView) (s : σ) :
    List Move :=
  match changes with
  | .root =>
    match tree.root with
    | none => []
    | some root => refreshMoves fs root true false tree s
  | .dirs dirs => followDirsMoves fs dirs tree s

theorem cascadeMoves_nil {c : Cascade σ} (hqueue : c.queue = []) (fs : FileSystem σ)
    (lister : Lister) (count : Nat) : cascadeMoves fs lister count c = [] := by
  cases count with
  | zero => rfl
  | succ count => simp only [cascadeMoves, hqueue]

theorem cascadeMoves_cons {c : Cascade σ} {id : NodeId} {queue : List NodeId}
    (hqueue : c.queue = id :: queue) (fs : FileSystem σ) (lister : Lister) (count : Nat) :
    cascadeMoves fs lister (count + 1) c =
      visitMoves fs lister id true false c.tree c.world ++
        cascadeMoves fs lister count (c.step fs lister) := by
  simp only [cascadeMoves, hqueue]

theorem issuedBy_append (moves later : List Move) :
    issuedBy (moves ++ later) = issuedBy moves ++ issuedBy later := List.flatMap_append

theorem failedBy_append (moves later : List Move) :
    failedBy (moves ++ later) = failedBy moves ++ failedBy later := List.flatMap_append

theorem flatMap_checkMoves {β : Type} {view : Move → List β}
    (hview : ∀ id found, view (.note id found) = []) (fs : FileSystem σ) (lister : Lister)
    (targets : List (NodeId × Handle)) (s : σ) :
    (checkMoves fs lister targets s).flatMap view = [] := by
  fun_induction checkMoves fs lister targets s with
  | case1 => rfl
  | case2 _ _ _ _ _ _ _ ih => rw [List.flatMap_cons, hview, ih, List.append_nil]
  | case3 _ _ _ _ _ _ _ ih => exact ih

theorem flatMap_appliedMoves {β : Type} {view : Move → List β}
    (hview : ∀ id found, view (.note id found) = []) (fs : FileSystem σ) (lister : Lister)
    (id : NodeId) (always : Bool) (result : Except Failure Application × TreeView) (s : σ) :
    (appliedMoves fs lister id always result s).flatMap view = [] := by
  unfold appliedMoves
  split
  · split
    · exact flatMap_checkMoves hview ..
    · rfl
  · rfl

theorem issuedBy_visitMoves {id : NodeId} {node : Node} (h : tree.arena.get? id = some node)
    (fs : FileSystem σ) (lister : Lister) (recursive always : Bool) (s : σ) :
    issuedBy (visitMoves fs lister id recursive always tree s) = [id] := by
  simp only [visitMoves, issue_of_live h]
  exact congrArg (List.cons id) (flatMap_appliedMoves (fun _ _ => rfl) ..)

theorem failedBy_visitMoves {id : NodeId} {node : Node} (h : tree.arena.get? id = some node)
    (fs : FileSystem σ) (lister : Lister) (recursive always : Bool) (s : σ) :
    failedBy (visitMoves fs lister id recursive always tree s) =
      match (fetchVisible fs lister.filter lister.volumes node.handle s).1 with
      | .error _ => [id]
      | .ok _ => [] := by
  simp only [visitMoves, issue_of_live h, Lister.fetch, failedBy, List.flatMap_cons,
    @flatMap_appliedMoves _ _ Move.failed (fun _ _ => rfl), Move.failed, List.nil_append,
    List.append_nil]
  cases (fetchVisible fs lister.filter lister.volumes node.handle s).1 <;> rfl

theorem checkTargets_run (fs : FileSystem σ) (lister : Lister) (targets : List (NodeId × Handle))
    (tree : TreeView) (s : σ) :
    Run fs tree (checkMoves fs lister targets s) (checkTargets fs lister targets tree s).1 := by
  fun_induction checkTargets fs lister targets tree s with
  | case1 => exact .nil
  | case2 id handle targets tree s found s' hcheck ih =>
    simp only [checkMoves, hcheck]
    exact .cons trivial ih
  | case3 id handle targets tree s e s' hcheck ih =>
    simp only [checkMoves, hcheck]
    exact ih

theorem visitChecks_run (fs : FileSystem σ) (lister : Lister) (id : NodeId) (always : Bool)
    (outcome : MergeOutcome) (tree : TreeView) (s : σ) :
    Run fs tree
      (if always || tree.arena.isExpanded id then
        checkMoves fs lister (tree.collapsedChildren id) s
      else [])
      (visitChecks fs lister id always outcome tree s).tree := by
  unfold visitChecks
  split
  · exact checkTargets_run ..
  · exact .nil

theorem visit_run (fs : FileSystem σ) (lister : Lister) (id : NodeId) (recursive always : Bool)
    (tree : TreeView) (s : σ) :
    Run fs tree (visitMoves fs lister id recursive always tree s)
      (visit fs lister id recursive always tree s).tree := by
  unfold visitMoves visit
  cases hlive : tree.arena.get? id with
  | none =>
    simp only [issue_of_dead hlive]
    exact .nil
  | some node =>
    simp only [issue_of_live hlive]
    refine .cons trivial ?_
    rw [act, issue_snd]
    refine .cons ⟨fun node' hnode' => ?_, fun listing hlisting => ⟨_, _, s, hlisting⟩⟩ ?_
    · obtain rfl := Option.some.inj ((get?_bumped hlive).symm.trans hnode')
      rfl
    · simp only [act]
      generalize (tree.bumped id).applyFetched _ _ = result
      obtain ⟨_ | _ | outcome, applied⟩ := result
      · exact .nil
      · exact visitChecks_run ..
      · exact .nil

/-- What operations are made of: whole visits, by the filter and the volumes of the moment, and
moves that do not refresh. -/
inductive Course (fs : FileSystem σ) : TreeView → List Move → TreeView → Prop where
  | nil {tree : TreeView} : Course fs tree [] tree
  | visit {tree last : TreeView} {moves : List Move} (id : NodeId) (recursive always : Bool) (s : σ)
      (rest : Course fs (visit fs tree.lister id recursive always tree s).tree moves last) :
      Course fs tree (visitMoves fs tree.lister id recursive always tree s ++ moves) last
  | move {tree last : TreeView} {move : Move} {moves : List Move} (apart : move.refreshes = false)
      (allowed : tree.Allows fs move) (rest : Course fs (tree.act move) moves last) :
      Course fs tree (move :: moves) last

theorem Course.run (h : Course fs tree moves last) : Run fs tree moves last := by
  induction h with
  | nil => exact .nil
  | visit id recursive always s _ ih => exact (visit_run ..).append ih
  | move _ allowed _ ih => exact .cons allowed ih

theorem Course.single (apart : move.refreshes = false) (allowed : tree.Allows fs move) :
    Course fs tree [move] (tree.act move) := .move apart allowed .nil

/-- A course with the states that the requests leave the filesystem in. -/
inductive Trail (fs : FileSystem σ) : TreeView → σ → List Move → TreeView → σ → Prop where
  | nil {tree : TreeView} {s : σ} : Trail fs tree s [] tree s
  | visit {tree last : TreeView} {s s' : σ} {moves : List Move} (id : NodeId)
      (recursive always : Bool)
      (rest : Trail fs (visit fs tree.lister id recursive always tree s).tree
        (visit fs tree.lister id recursive always tree s).world moves last s') :
      Trail fs tree s (visitMoves fs tree.lister id recursive always tree s ++ moves) last s'
  | compared {tree last : TreeView} {s s' : σ} {moves : List Move} (a b : Handle)
      (rest : Trail fs tree (fs.sameDirectory s a b).2 moves last s') :
      Trail fs tree s moves last s'
  | move {tree last : TreeView} {s s' : σ} {move : Move} {moves : List Move}
      (apart : move.refreshes = false) (allowed : tree.Allows fs move)
      (rest : Trail fs (tree.act move) s moves last s') : Trail fs tree s (move :: moves) last s'

theorem Trail.course (h : Trail fs tree s moves last s') : Course fs tree moves last := by
  induction h with
  | nil => exact .nil
  | visit id recursive always _ ih => exact .visit id recursive always _ ih
  | compared _ _ _ ih => exact ih
  | move apart allowed _ ih => exact .move apart allowed ih

theorem Trail.run (h : Trail fs tree s moves last s') : Run fs tree moves last := h.course.run

theorem Trail.append (h : Trail fs tree s moves mid s') (h' : Trail fs mid s' later last s'') :
    Trail fs tree s (moves ++ later) last s'' := by
  induction h with
  | nil => exact h'
  | visit id recursive always _ ih =>
    rw [List.append_assoc]
    exact .visit id recursive always (ih h')
  | compared a b _ ih => exact .compared a b (ih h')
  | move apart allowed _ ih => exact .move apart allowed (ih h')

theorem Trail.single (apart : move.refreshes = false) (allowed : tree.Allows fs move) :
    Trail fs tree s [move] (tree.act move) s := .move apart allowed .nil

theorem visit_trail (fs : FileSystem σ) (id : NodeId) (recursive always : Bool) (tree : TreeView)
    (s : σ) :
    Trail fs tree s (visitMoves fs tree.lister id recursive always tree s)
      (visit fs tree.lister id recursive always tree s).tree
      (visit fs tree.lister id recursive always tree s).world := by
  rw [← List.append_nil (visitMoves ..)]
  exact .visit id recursive always .nil

theorem cascade_trail (fs : FileSystem σ) (lister : Lister) (count : Nat) {c : Cascade σ}
    (h : c.tree.WellFormed) (hlister : c.tree.lister = lister) :
    Trail fs c.tree c.world (cascadeMoves fs lister count c) (Cascade.run fs lister count c).tree
      (Cascade.run fs lister count c).world := by
  induction count generalizing c with
  | zero => exact .nil
  | succ count ih =>
    unfold cascadeMoves Cascade.run
    cases hqueue : c.queue with
    | nil => exact .nil
    | cons id queue =>
      have htree : (c.step fs lister).tree =
          (visit fs lister id true false c.tree c.world).tree := by
        simp only [Cascade.step, hqueue, refreshNode_tree]
      have hworld : (c.step fs lister).world =
          (visit fs lister id true false c.tree c.world).world := by
        simp only [Cascade.step, hqueue, refreshNode_world]
      have hvisit := visit_trail fs id true false c.tree c.world
      rw [hlister, ← htree, ← hworld] at hvisit
      refine hvisit.append (ih (hvisit.run.wellFormed h) ?_)
      rw [htree, lister_visit h, hlister]

theorem refreshWith_trail (h : tree.WellFormed) (fs : FileSystem σ) (id : NodeId)
    (recursive always : Bool) (s : σ) :
    Trail fs tree s (refreshMoves fs id recursive always tree s)
      (refreshWith fs id recursive always tree s).2.1
      (refreshWith fs id recursive always tree s).2.2 := by
  have hvisit := visit_trail fs id recursive always tree s
  have hlister := lister_visit h fs tree.lister id recursive always s
  rw [refreshWith_eq, refreshMoves]
  generalize visit fs tree.lister id recursive always tree s = v at hvisit hlister ⊢
  refine hvisit.append ?_
  obtain ⟨answer, checked, visited, world⟩ := v
  cases answer with
  | error e => exact .nil
  | ok application =>
    cases application with
    | stale => exact .nil
    | applied outcome =>
      exact @cascade_trail _ fs tree.lister visited.size
        ⟨outcome.cascade, (Totals.zero.add outcome).addChecked checked, visited, world⟩
        (hvisit.run.wellFormed h) hlister

theorem refresh_trail (h : tree.WellFormed) (fs : FileSystem σ) (id : NodeId) (recursive : Bool)
    (s : σ) :
    Trail fs tree s (refreshMoves fs id recursive false tree s) (refresh fs id recursive tree s).2.1
      (refresh fs id recursive tree s).2.2 := refreshWith_trail h ..

theorem refresh_course (h : tree.WellFormed) (fs : FileSystem σ) (id : NodeId) (recursive : Bool)
    (s : σ) :
    Course fs tree (refreshMoves fs id recursive false tree s)
      (refresh fs id recursive tree s).2.1 := (refresh_trail h ..).course

theorem expand_trail (h : tree.WellFormed) (fs : FileSystem σ) (id : NodeId) (s : σ) :
    Trail fs tree s (expandMoves fs id tree s) (expand fs id tree s).2.1
      (expand fs id tree s).2.2 := by
  unfold expandMoves expand
  split
  · refine .move rfl trivial ?_
    have hrefresh := refresh_trail (h.setExpanded id true) fs id true s
    rw [act]
    generalize refresh fs id true (tree.setExpanded id true) s = result at hrefresh ⊢
    obtain ⟨_ | totals, refreshed, world⟩ := result
    · refine hrefresh.append ?_
      dsimp only
      split
      · exact .nil
      · exact .single rfl trivial
    · exact hrefresh.append .nil
  · exact .nil

theorem collapse_trail (fs : FileSystem σ) (tree : TreeView) (id : NodeId) (s : σ) :
    Trail fs tree s (collapseMoves tree id) (tree.collapse id).2 s := by
  unfold collapseMoves collapse
  split
  · exact .nil
  · split
    · exact .single rfl trivial
    · exact .nil

theorem useFilter_of_root {root : NodeId} (hroot : tree.root = some root) {next : NameFilter}
    (hnew : tree.filter ≠ next) (fs : FileSystem σ) (s : σ) :
    tree.useFilter fs next s = refresh fs root true { tree with filter := next } s := by
  rw [useFilter, if_neg (Ne.symm hnew)]
  simp only [hroot]

theorem useFilterMoves_of_root {root : NodeId} (hroot : tree.root = some root) {next : NameFilter}
    (hnew : tree.filter ≠ next) (fs : FileSystem σ) (s : σ) :
    tree.useFilterMoves fs next s =
      .useFilter next :: refreshMoves fs root true false { tree with filter := next } s := by
  rw [useFilterMoves, if_neg (Ne.symm hnew)]
  simp only [hroot]

theorem useFilter_trail (h : tree.WellFormed) (fs : FileSystem σ) (filter : NameFilter) (s : σ) :
    Trail fs tree s (useFilterMoves fs filter tree s) (useFilter fs filter tree s).2.1
      (useFilter fs filter tree s).2.2 := by
  by_cases hsame : tree.filter = filter
  · simp only [useFilterMoves, useFilter, hsame, if_true]
    exact .nil
  · cases hroot : tree.root with
    | none =>
      have hmoves : tree.useFilterMoves fs filter s = [.useFilter filter] := by
        simp [useFilterMoves, Ne.symm hsame, hroot]
      have hafter : (tree.useFilter fs filter s).2 = (tree.act (.useFilter filter), s) := by
        simp [useFilter, Ne.symm hsame, hroot, act]
      rw [hmoves, hafter]
      exact .single rfl trivial
    | some root =>
      rw [useFilterMoves_of_root hroot hsame, useFilter_of_root hroot hsame]
      exact .move rfl trivial (refresh_trail (h.refiltered filter) ..)

theorem listLevel_trail (h : tree.WellFormed) (fs : FileSystem σ) (id root : NodeId) (s : σ) :
    Trail fs tree s (listLevelMoves fs id root tree s) (listLevel fs id root tree s).2.1
      (listLevel fs id root tree s).2.2 := by
  unfold listLevelMoves listLevel
  have hrefresh := refreshWith_trail h fs id false true s
  generalize refreshWith fs id false true tree s = result at hrefresh ⊢
  obtain ⟨_ | totals, refreshed, world⟩ := result
  · refine hrefresh.append ?_
    dsimp only
    split
    · exact .single rfl trivial
    · exact .nil
  · exact hrefresh.append .nil

theorem cascade_of_empty (fs : FileSystem σ) (lister : Lister) (count : Nat) {c : Cascade σ}
    (hqueue : c.queue = []) : Cascade.run fs lister count c = c := by
  cases count with
  | zero => rfl
  | succ count => simp [Cascade.run, hqueue]

/-- What a refresh answers that consists of one visit. -/
def Visit.totals (v : Visit σ) : Except Failure Totals :=
  match v.answer with
  | .error e => .error e
  | .ok .stale => .ok { Totals.zero with stale := true }
  | .ok (.applied outcome) => .ok ((Totals.zero.add outcome).addChecked v.checked)

theorem refreshWith_false_eq (h : tree.WellFormed) (fs : FileSystem σ) (id : NodeId)
    (always : Bool) (s : σ) :
    refreshWith fs id false always tree s =
      let v := visit fs tree.lister id false always tree s
      (v.totals, v.tree, v.world) := by
  rw [refreshWith_eq]
  cases hlive : tree.arena.get? id with
  | none => simp only [visit_of_dead hlive, Visit.totals]
  | some node =>
    rcases visit_of_live h hlive fs tree.lister false always s with
      ⟨e, _, heq⟩ | ⟨listing, outcome, listed, children, _, _, hcascade, heq⟩
    · simp only [heq, Visit.totals]
    · have hempty : outcome.cascade = [] := by simp [hcascade]
      simp only [heq, visitChecks_answer, hempty, Visit.totals, cascade_of_empty fs tree.lister _]

theorem refreshWith_false_tree (h : tree.WellFormed) (fs : FileSystem σ) (id : NodeId)
    (always : Bool) (s : σ) :
    (refreshWith fs id false always tree s).2.1 =
      (visit fs tree.lister id false always tree s).tree := by
  rw [refreshWith_false_eq h]

theorem refreshMoves_false (h : tree.WellFormed) (fs : FileSystem σ) (id : NodeId)
    (always : Bool) (s : σ) :
    refreshMoves fs id false always tree s = visitMoves fs tree.lister id false always tree s := by
  have hafter : afterVisitMoves fs tree.lister (visit fs tree.lister id false always tree s) =
      [] := by
    cases hlive : tree.arena.get? id with
    | none => rw [visit_of_dead hlive, afterVisitMoves]
    | some node =>
      rcases visit_of_live h hlive fs tree.lister false always s with
        ⟨e, _, heq⟩ | ⟨listing, outcome, listed, children, _, _, hcascade, heq⟩
      · rw [heq, afterVisitMoves]
      · simp only [afterVisitMoves, heq, visitChecks_answer]
        exact cascadeMoves_nil (by simp [hcascade]) ..
  rw [refreshMoves, hafter, List.append_nil]

theorem listLevel_tree (h : tree.WellFormed) {id root : NodeId} {tree' : TreeView} {s' : σ}
    (hlisted : listLevel fs id root tree s = (.ok (), tree', s')) :
    tree' = (visit fs tree.lister id false true tree s).tree := by
  rw [← refreshWith_false_tree h]
  unfold listLevel at hlisted
  split at hlisted
  · rename_i hrefresh
    rw [hrefresh]
    exact (congrArg (fun result => result.2.1) hlisted).symm
  · simp at hlisted

theorem listLevel_live (h : tree.WellFormed) {id root : NodeId} {node : Node}
    (hlive : tree.arena.get? id = some node) {tree' : TreeView} {s' : σ}
    (hlisted : listLevel fs id root tree s = (.ok (), tree', s')) :
    ∃ node', tree'.arena.get? id = some node' := by
  rw [listLevel_tree h hlisted]
  exact visit_live h hlive fs tree.lister false true s

theorem arriveAt_trail (h : tree.WellFormed) {id : NodeId} {node : Node}
    (hlive : tree.arena.get? id = some node) (fs : FileSystem σ) (root : NodeId) (handle : Handle)
    (s : σ) :
    Trail fs tree s (arriveMoves fs id root handle tree s)
      (arriveAt fs id root handle tree s).2.1 (arriveAt fs id root handle tree s).2.2 := by
  unfold arriveMoves arriveAt
  split
  · have hlevel := listLevel_trail h fs id root s
    cases hlisted : listLevel fs id root tree s with
    | mk answer rest =>
      obtain ⟨listed, world⟩ := rest
      rw [hlisted] at hlevel
      cases answer with
      | error e => exact hlevel.append .nil
      | ok _ => exact hlevel.append (.single rfl (listLevel_live h hlive hlisted))
  · exact .single rfl ⟨node, hlive⟩

theorem descend_trail (h : tree.WellFormed) (fs : FileSystem σ) (target : String) (root : NodeId)
    (budget : Nat) (current : NodeId) (s : σ) :
    Trail fs tree s (descendMoves fs target root budget current tree s)
      (descend fs target root budget current tree s).2.1
      (descend fs target root budget current tree s).2.2 := by
  induction budget generalizing tree current s with
  | zero => exact .nil
  | succ budget ih =>
    unfold descendMoves descend
    cases hlive : tree.node? current with
    | none => exact .nil
    | some node =>
      dsimp only
      refine .compared node.handle (.real target) ?_
      rcases fs.sameDirectory s node.handle (.real target) with ⟨_ | _, world⟩
      · dsimp only
        cases tree.wayTo? current target with
        | some child => exact ih h child world
        | none =>
          have hlevel := listLevel_trail h fs current root world
          have hlisted := hlevel.run.wellFormed h
          generalize listLevel fs current root tree world = result at hlevel hlisted ⊢
          obtain ⟨_ | _, listed, world'⟩ := result
          · exact hlevel.append .nil
          · refine hlevel.append ?_
            dsimp only
            cases listed.wayTo? current target with
            | some child => exact ih hlisted child world'
            | none => exact .nil
      · exact arriveAt_trail h hlive fs root node.handle world

theorem ensureRoot_trail (fs : FileSystem σ) (tree : TreeView) (top : String) (s : σ) :
    Trail fs tree s (ensureRootMoves tree top) (tree.ensureRoot top).1 s := by
  unfold ensureRootMoves ensureRoot
  cases hroot : tree.root with
  | none =>
    have hpath : tree.rootPath? = none := by simp [rootPath?, hroot]
    simp only [hpath, reduceCtorEq, if_false]
    exact .single rfl trivial
  | some root =>
    dsimp only
    split
    · exact .nil
    · exact .single rfl trivial

theorem binding_trail (fs : FileSystem σ) (tree : TreeView) (top : String) (s : σ) :
    Trail fs tree s (ensureRootMoves tree top ++ [.deselect])
      { (tree.ensureRoot top).1 with selected := none } s := by
  have hdeselect : (tree.ensureRoot top).1.Allows fs .deselect := trivial
  exact (ensureRoot_trail fs tree top s).append (.single rfl hdeselect)

theorem alreadySelected_trail (fs : FileSystem σ) (target : String) (tree : TreeView) (s : σ) :
    Trail fs tree s [] tree (alreadySelected fs target tree s).2 := by
  unfold alreadySelected
  cases tree.selected with
  | none => exact .nil
  | some id =>
    dsimp only
    cases tree.node? id with
    | none => exact .nil
    | some node =>
      refine .compared node.handle (.real target) ?_
      dsimp only
      rcases fs.sameDirectory s node.handle (.real target) with ⟨_ | _, world⟩ <;> exact .nil

theorem selectWithin_trail (h : tree.WellFormed) (fs : FileSystem σ) (budget : Nat) (path : String)
    (s : σ) : Trail fs tree s (selectMoves fs budget path tree s)
      (selectWithin fs budget path tree s).2.1 (selectWithin fs budget path tree s).2.2 := by
  have hasked := alreadySelected_trail fs (Path.normalize path) tree s
  unfold selectMoves selectWithin
  dsimp only
  generalize alreadySelected fs (Path.normalize path) tree s = result at hasked ⊢
  obtain ⟨_ | id, world⟩ := result
  · have hbound := ensureRoot_trail fs tree (tree.volumes.rootOf (Path.normalize path)) world
    refine hasked.append (hbound.append (.move rfl trivial (descend_trail ?_ ..)))
    exact (hbound.run.wellFormed h).act_of_live (by simp)
  · exact hasked

theorem follow_of_owner {changed : String} {id : NodeId}
    (howner : tree.owner? changed = some id) (fs : FileSystem σ) (s : σ) :
    follow fs changed tree s =
      ((refresh fs id false tree s).1.map fun _ => true, (refresh fs id false tree s).2) := by
  unfold follow
  simp only [howner]
  generalize refresh fs id false tree s = result
  obtain ⟨_ | _, _, _⟩ := result <;> rfl

theorem follow_of_no_owner {changed : String} (howner : tree.owner? changed = none)
    (fs : FileSystem σ) (s : σ) : follow fs changed tree s = (.ok false, tree, s) := by
  simp only [follow, howner]

theorem follow_trail (h : tree.WellFormed) (fs : FileSystem σ) (changed : String) (s : σ) :
    Trail fs tree s (followMoves fs changed tree s) (follow fs changed tree s).2.1
      (follow fs changed tree s).2.2 := by
  unfold followMoves
  cases howner : tree.owner? changed with
  | none =>
    rw [follow_of_no_owner howner]
    exact .nil
  | some id =>
    rw [follow_of_owner howner]
    exact refresh_trail h fs id false s

theorem followDirs_trail (h : tree.WellFormed) (fs : FileSystem σ) (dirs : List String)
    (refreshed : Bool) (s : σ) :
    Trail fs tree s (followDirsMoves fs dirs tree s) (followDirs fs dirs refreshed tree s).2.1
      (followDirs fs dirs refreshed tree s).2.2 := by
  induction dirs generalizing refreshed tree s with
  | nil => exact .nil
  | cons dir dirs ih =>
    unfold followDirsMoves followDirs
    have hfollow := follow_trail h fs dir s
    have hnext := hfollow.run.wellFormed h
    generalize follow fs dir tree s = result at hfollow hnext ⊢
    obtain ⟨_ | hit, next, world⟩ := result <;> exact hfollow.append (ih hnext ..)

theorem followAll_trail (h : tree.WellFormed) (fs : FileSystem σ) (changes : Touched) (s : σ) :
    Trail fs tree s (followAllMoves fs changes tree s) (followAll fs changes tree s).2.1
      (followAll fs changes tree s).2.2 := by
  cases changes with
  | root =>
    unfold followAllMoves followAll
    dsimp only
    cases tree.root with
    | none => exact .nil
    | some root =>
      have hrefresh := refresh_trail h fs root true s
      dsimp only
      generalize refresh fs root true tree s = result at hrefresh ⊢
      obtain ⟨_ | totals, refreshed, world⟩ := result <;> exact hrefresh
  | dirs dirs => exact followDirs_trail h ..

end LazyTree.TreeView
