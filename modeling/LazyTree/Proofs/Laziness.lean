import LazyTree.Proofs.Failures
import LazyTree.Proofs.Fetches
import LazyTree.Proofs.Levels

/-!
For which nodes an operation lists directories. They are the root, expanded nodes and the nodes on
the way to a path that is selected, and besides these, whether they are expanded or not, the nodes
of directories that are followed because they changed.
-/
namespace LazyTree
variable {σ : Type} {fs : FileSystem σ}

namespace TreeView
variable {tree last : TreeView} {id i top parent child : NodeId} {node : Node} {target : String}
variable {failed visited : List NodeId} {start : Arena} {lister : Lister} {c : Cascade σ}
variable {recursive always : Bool} {s : σ}

/-- The nodes whose children are shown. -/
def Open (tree : TreeView) (id : NodeId) : Prop :=
  tree.root = some id ∨ tree.arena.isExpanded id = true

/-- The nodes on the way from the root towards a path. -/
inductive OnWay (tree : TreeView) (target : String) : NodeId → Prop where
  | root {id : NodeId} (root : tree.root = some id) : OnWay tree target id
  | child {parent id : NodeId} {path : String} (above : OnWay tree target parent)
      (listed : id ∈ tree.children parent) (named : tree.pathOf? id = some path)
      (covers : Path.covers path target = true) : OnWay tree target id

theorem OnWay.wayTo (h : tree.OnWay target parent) (hway : tree.wayTo? parent target = some child) :
    tree.OnWay target child := by
  cases hnamed : tree.pathOf? child with
  | none =>
    have hcovers := List.find?_some hway
    simp [hnamed] at hcovers
  | some path => exact .child h (mem_children_of_wayTo? hway) hnamed (covers_of_wayTo? hway hnamed)

theorem OnWay.visit (h : tree.OnWay target i) (hw : tree.WellFormed)
    (hlive : tree.arena.get? id = some node) (hi : i = id ∨ ¬ tree.arena.Under id i)
    (fs : FileSystem σ) (lister : Lister) (recursive always : Bool) (s : σ) :
    (visit fs lister id recursive always tree s).tree.OnWay target i := by
  have hrun := visit_run fs lister id recursive always tree s
  induction h with
  | root hroot =>
    have hframe := hrun.frame hw (refreshes_visitMoves ..)
    exact .root ((root_of_frame hframe).trans hroot)
  | @child parent i path above listed named covers ih =>
    have hnot : ¬ tree.arena.Under id parent := by
      intro hu
      cases hi with
      | inl heq =>
        subst heq
        exact absurd (hw.linked.lower listed) (Nat.not_lt.mpr (hw.linked.le_of_under hu))
      | inr hnot => exact hnot (hw.linked.under_of_listed listed hu)
    have hkept {j : NodeId} {n : Node} (hj : tree.arena.get? j = some n)
        (hu : ¬ tree.arena.Under id j) :
        (TreeView.visit fs lister id recursive always tree s).tree.arena.get? j = some n :=
      visit_untouched hw hlive fs lister recursive always s hj hu
    obtain ⟨lists, hlists, hmem⟩ := Arena.live_of_mem_childrenOf listed
    refine .child (ih (.inr hnot)) ?_ ?_ covers
    · rw [TreeView.children, Arena.childrenOf_of_live (hkept hlists hnot)]
      exact hmem
    · obtain ⟨was, hwas, hpath⟩ := Option.map_eq_some_iff.mp named
      cases hi with
      | inr hu =>
        exact (congrArg (Option.map Node.path) (hkept hwas hu)).trans (congrArg some hpath)
      | inl heq =>
        subst heq
        obtain ⟨now, hnow⟩ := visit_live hw hlive fs lister recursive always s
        have hsame := ((hrun.evolves hw).lived hwas hnow).1
        exact (congrArg (Option.map Node.path) hnow).trans (congrArg some (hsame.trans hpath))

theorem expanded_of_queued (hw : tree.WellFormed) (hlive : tree.arena.get? id = some node)
    {fs : FileSystem σ} {outcome : MergeOutcome}
    (hv : (visit fs lister id true false tree s).answer = .ok (.applied outcome))
    (hi : i ∈ outcome.cascade) :
    (visit fs lister id true false tree s).tree.arena.isExpanded i = true := by
  obtain ⟨hafter, hbefore, hexpanded⟩ := (stepped_of_visit hw hlive hv).of_queued hw hi
  have hstays := stays_of_visit hw hlive fs lister true false s hbefore hexpanded hafter
  exact hstays.isExpanded_eq.trans hexpanded

/-- The nodes that wait in the queue of a cascade stay expanded until their turn. -/
theorem kept_expanded (fs : FileSystem σ) (lister : Lister) :
    Kept fs lister fun _ _ queue tree _ => ∀ i ∈ queue, tree.arena.isExpanded i = true := by
  intro top start failed visited queue tree s id node hwalk hlive hopen
  have hwaiting {i : NodeId} (hi : i ∈ queue) :
      (visit fs lister id true false tree s).tree.arena.isExpanded i = true := by
    have hstays := hwalk.stays hlive (List.mem_append_right failed hi) fs lister true false s
    exact hstays.isExpanded_eq.trans (hopen i (List.mem_cons_of_mem _ hi))
  refine ⟨fun _ i hi => hwaiting hi, fun hanswer i hi => ?_⟩
  cases List.mem_append.mp hi with
  | inl hi => exact hwaiting hi
  | inr hi => exact expanded_of_queued hwalk.wellFormed hlive hanswer hi

theorem issues_cascadeMoves (h : Walk top start failed visited c.queue c.tree)
    (hopen : ∀ i ∈ c.queue, c.tree.arena.isExpanded i = true) (fs : FileSystem σ)
    (lister : Lister) (count : Nat) :
    ∀ issue ∈ issues c.tree (cascadeMoves fs lister count c),
      issue.1.arena.isExpanded issue.2 = true := by
  induction count generalizing failed visited c with
  | zero => exact List.forall_mem_nil _
  | succ count ih =>
    cases hqueue : c.queue with
    | nil =>
      rw [cascadeMoves_nil hqueue]
      exact List.forall_mem_nil _
    | cons id queue =>
      rw [hqueue] at h hopen
      have htree : (c.step fs lister).tree =
          (visit fs lister id true false c.tree c.world).tree := by
        simp only [Cascade.step, hqueue, refreshNode_tree]
      obtain ⟨hwalk, hopen', _⟩ :=
        Walk.advance (motive := fun _ _ queue tree _ => ∀ i ∈ queue, tree.arena.isExpanded i = true)
          (kept_expanded fs lister) hqueue h hopen
      rw [cascadeMoves_cons hqueue, issues_append, ← (visit_run ..).last_eq, ← htree,
        List.forall_mem_append]
      refine ⟨fun issue hissue => ?_, ih hwalk hopen'⟩
      rw [mem_issues_visitMoves hissue]
      exact hopen id List.mem_cons_self

theorem issues_refreshMoves (hw : tree.WellFormed) (fs : FileSystem σ) (id : NodeId)
    (recursive : Bool) (s : σ) :
    ∀ issue ∈ issues tree (refreshMoves fs id recursive false tree s),
      issue = (tree, id) ∨ issue.1.arena.isExpanded issue.2 = true := by
  have hfirst (recursive : Bool) :
      ∀ issue ∈ issues tree (visitMoves fs tree.lister id recursive false tree s),
        issue = (tree, id) ∨ issue.1.arena.isExpanded issue.2 = true :=
    fun _ hissue => .inl (mem_issues_visitMoves hissue)
  cases recursive with
  | false =>
    rw [refreshMoves_false hw]
    exact hfirst false
  | true =>
    rw [refreshMoves, issues_append, ← (visit_run ..).last_eq, List.forall_mem_append]
    refine ⟨hfirst true, fun issue hissue => .inr ?_⟩
    unfold afterVisitMoves at hissue
    split at hissue
    · rename_i outcome hanswer
      cases hlive : tree.arena.get? id with
      | none => simp [visit_of_dead hlive] at hanswer
      | some node =>
        refine @issues_cascadeMoves _ _ _ _ _ ⟨outcome.cascade, _, _, _⟩
          ((stepped_of_visit hw hlive hanswer).walk hw) ?_ fs tree.lister _ issue hissue
        exact fun i hi => expanded_of_queued hw hlive hanswer hi
    · cases hissue

theorem issues_of_open (hw : tree.WellFormed) (h : tree.Open id) (fs : FileSystem σ)
    (recursive : Bool) (s : σ) :
    ∀ issue ∈ issues tree (refreshMoves fs id recursive false tree s), issue.1.Open issue.2 := by
  intro issue hissue
  cases issues_refreshMoves hw fs id recursive s issue hissue with
  | inl heq =>
    rw [heq]
    exact h
  | inr hexpanded => exact .inr hexpanded

theorem issues_expandMoves (hw : tree.WellFormed) (fs : FileSystem σ) (id : NodeId) (s : σ) :
    ∀ issue ∈ issues tree (expandMoves fs id tree s), issue.1.Open issue.2 := by
  unfold expandMoves
  split
  · rename_i hholds
    obtain ⟨node, hlive⟩ := Arena.contains_iff.mp hholds
    have hopen : (tree.setExpanded id true).Open id := .inr (isExpanded_setExpanded_self hlive)
    rw [issues_cons_of_apart rfl, issues_append, List.forall_mem_append]
    refine ⟨issues_of_open (hw.setExpanded id true) hopen fs true s, forall_issues_of_none ?_⟩
    split
    · rfl
    · split <;> rfl
  · exact List.forall_mem_nil _

theorem issues_useFilterMoves (hw : tree.WellFormed) (fs : FileSystem σ) (filter : NameFilter)
    (s : σ) : ∀ issue ∈ issues tree (useFilterMoves fs filter tree s), issue.1.Open issue.2 := by
  unfold useFilterMoves
  split
  · exact List.forall_mem_nil _
  · rw [issues_cons_of_apart rfl]
    split
    · rename_i root hroot
      exact issues_of_open (hw.refiltered filter) (.inl hroot) fs true s
    · exact List.forall_mem_nil _

theorem mem_issues_listLevelMoves (hw : tree.WellFormed) {root : NodeId}
    {issue : TreeView × NodeId} (h : issue ∈ issues tree (listLevelMoves fs id root tree s)) :
    issue = (tree, id) := by
  rw [listLevelMoves, refreshMoves_false hw, issues_append, List.mem_append] at h
  cases h with
  | inl h => exact mem_issues_visitMoves h
  | inr h =>
    refine forall_issues_of_none (motive := (· = (tree, id))) ?_ issue h
    split
    · rfl
    · split <;> rfl

theorem issues_arriveMoves (hw : tree.WellFormed) (h : tree.OnWay target id) (fs : FileSystem σ)
    (root : NodeId) (handle : Handle) (s : σ) :
    ∀ issue ∈ issues tree (arriveMoves fs id root handle tree s), issue.1.OnWay target issue.2 := by
  unfold arriveMoves
  split
  · rw [issues_append, List.forall_mem_append]
    constructor
    · intro issue hissue
      rw [mem_issues_listLevelMoves hw hissue]
      exact h
    · refine forall_issues_of_none ?_
      split <;> rfl
  · exact List.forall_mem_nil _

theorem issues_descendMoves (hw : tree.WellFormed) {current : NodeId}
    (h : tree.OnWay target current) (fs : FileSystem σ) (root : NodeId) (budget : Nat) (s : σ) :
    ∀ issue ∈ issues tree (descendMoves fs target root budget current tree s),
      issue.1.OnWay target issue.2 := by
  induction budget generalizing tree current s with
  | zero => exact List.forall_mem_nil _
  | succ budget ih =>
    unfold descendMoves
    cases hlive : tree.node? current with
    | none => exact List.forall_mem_nil _
    | some node =>
      dsimp only
      rcases fs.sameDirectory s node.handle (.real target) with ⟨_ | _, world⟩
      · dsimp only
        cases hway : tree.wayTo? current target with
        | some child => exact ih hw (h.wayTo hway) world
        | none =>
          have hlevel := listLevel_trail hw fs current root world
          have hwlisted := hlevel.run.wellFormed hw
          rw [issues_append, ← hlevel.run.last_eq, List.forall_mem_append]
          constructor
          · intro issue hissue
            rw [mem_issues_listLevelMoves hw hissue]
            exact h
          · cases hlisted : listLevel fs current root tree world with
            | mk answer rest =>
              obtain ⟨listed, world'⟩ := rest
              rw [hlisted] at hwlisted
              cases answer with
              | error e => exact List.forall_mem_nil _
              | ok _ =>
                have hon : listed.OnWay target current := by
                  rw [listLevel_tree hw hlisted]
                  exact h.visit hw hlive (.inl rfl) fs tree.lister false true world
                dsimp only
                cases hway : listed.wayTo? current target with
                | some child => exact ih hwlisted (hon.wayTo hway) world'
                | none => exact List.forall_mem_nil _
      · exact issues_arriveMoves hw h fs root node.handle world

theorem issues_selectMoves (hw : tree.WellFormed) (fs : FileSystem σ) (budget : Nat)
    (path : String) (s : σ) :
    ∀ issue ∈ issues tree (selectMoves fs budget path tree s),
      issue.1.OnWay (Path.normalize path) issue.2 := by
  unfold selectMoves
  dsimp only
  rcases alreadySelected fs (Path.normalize path) tree s with ⟨_ | id, world⟩
  · generalize tree.volumes.rootOf (Path.normalize path) = top
    have hbound := (ensureRoot_trail fs tree top world).run
    rw [issues_append, ← hbound.last_eq, issues_cons_of_apart rfl, List.forall_mem_append]
    constructor
    · refine forall_issues_of_none ?_
      unfold ensureRootMoves
      split <;> rfl
    · have hon : ((tree.ensureRoot top).1.act .deselect).OnWay (Path.normalize path)
          (tree.ensureRoot top).2 := .root (root_ensureRoot tree top)
      have hdeselected : ((tree.ensureRoot top).1.act .deselect).WellFormed :=
        (hbound.wellFormed hw).act_of_live (by simp)
      exact issues_descendMoves hdeselected hon fs _ budget world
  · exact List.forall_mem_nil _

/-- The directories that are followed one after the other, each with the tree at its turn. -/
def turns (fs : FileSystem σ) : List String → TreeView → σ → List (TreeView × String)
  | [], _, _ => []
  | dir :: dirs, tree, s =>
    let (_, next, s') := follow fs dir tree s
    (tree, dir) :: turns fs dirs next s'

def turnOwner? (turn : TreeView × String) : Option (TreeView × NodeId) :=
  (turn.1.owner? turn.2).map (turn.1, ·)

theorem live_of_ownerFrom? {changed : String} {depth : Nat}
    (h : tree.ownerFrom? changed depth i = some id) : ∃ node, tree.arena.get? id = some node := by
  induction depth generalizing i with
  | zero => cases h
  | succ depth ih =>
    unfold ownerFrom? at h
    cases hnamed : tree.pathOf? i with
    | none => simp [hnamed] at h
    | some path =>
      simp only [hnamed] at h
      split at h
      · obtain rfl := Option.some.inj h
        obtain ⟨node, hlive, _⟩ := Option.map_eq_some_iff.mp hnamed
        exact ⟨node, hlive⟩
      · split at h
        · obtain ⟨child, _, hbelow⟩ := Option.bind_eq_some_iff.mp h
          exact ih hbelow
        · cases h

theorem live_of_owner? {changed : String} (h : tree.owner? changed = some id) :
    ∃ node, tree.arena.get? id = some node := by
  obtain ⟨root, _, hfrom⟩ := Option.bind_eq_some_iff.mp h
  exact live_of_ownerFrom? hfrom

theorem issues_followMoves (hw : tree.WellFormed) (fs : FileSystem σ) (changed : String) (s : σ) :
    issues tree (followMoves fs changed tree s) = (turnOwner? (tree, changed)).toList := by
  unfold followMoves turnOwner?
  cases howner : tree.owner? changed with
  | none => rfl
  | some id =>
    obtain ⟨node, hlive⟩ := live_of_owner? howner
    dsimp only
    rw [refreshMoves_false hw, issues_visitMoves hlive]
    rfl

theorem issues_followDirsMoves (hw : tree.WellFormed) (fs : FileSystem σ) (dirs : List String)
    (s : σ) :
    issues tree (followDirsMoves fs dirs tree s) = (turns fs dirs tree s).filterMap turnOwner? := by
  induction dirs generalizing tree s with
  | nil => rfl
  | cons dir dirs ih =>
    have hrun := (follow_trail hw fs dir s).run
    unfold followDirsMoves turns
    dsimp only
    rw [issues_append, issues_followMoves hw, ← hrun.last_eq, ih (hrun.wellFormed hw),
      List.filterMap_cons]
    cases turnOwner? (tree, dir) <;> rfl

end TreeView

namespace Operation
variable {tree : TreeView} {s : σ}

/-- The nodes whose children an operation may list while the tree is as given: those that show them,
those on the way to the path that it selects, and the one that it is asked to refresh. -/
def MayList (tree : TreeView) (id : NodeId) : Operation → Prop
  | select path _ => tree.Open id ∨ tree.OnWay (Path.normalize path) id
  | refresh requested _ => tree.Open id ∨ id = requested
  | _ => tree.Open id

/-- The changed directories that an operation follows, each with the tree at its turn. -/
def turns (fs : FileSystem σ) (tree : TreeView) (s : σ) : Operation → List (TreeView × String)
  | follow changed => [(tree, changed)]
  | followAll (.dirs dirs) => TreeView.turns fs dirs tree s
  | _ => []

theorem mayList_of_issue (hw : tree.WellFormed) (fs : FileSystem σ) (s : σ) (operation : Operation)
    (hturns : operation.turns fs tree s = []) :
    ∀ issue ∈ TreeView.issues tree (operation.moves fs tree s),
      operation.MayList issue.1 issue.2 := by
  cases operation with
  | select path budget =>
    exact fun issue hissue => .inr (TreeView.issues_selectMoves hw fs budget path s issue hissue)
  | refresh id recursive =>
    intro issue hissue
    cases TreeView.issues_refreshMoves hw fs id recursive s issue hissue with
    | inl heq =>
      rw [heq]
      exact .inr rfl
    | inr hexpanded => exact .inl (.inr hexpanded)
  | expand id => exact TreeView.issues_expandMoves hw fs id s
  | collapse id =>
    refine @TreeView.forall_issues_of_none _ (tree.collapseMoves id) _ ?_
    unfold TreeView.collapseMoves
    split
    · rfl
    · split <;> rfl
  | useFilter filter => exact TreeView.issues_useFilterMoves hw fs filter s
  | clear => exact List.forall_mem_nil _
  | follow changed => cases hturns
  | followAll changes =>
    cases changes with
    | root =>
      simp only [moves, TreeView.followAllMoves]
      split
      · exact List.forall_mem_nil _
      · rename_i root hroot
        exact TreeView.issues_of_open hw (.inl hroot) fs true s
    | dirs dirs =>
      cases dirs with
      | nil => exact List.forall_mem_nil _
      | cons dir dirs => cases hturns

theorem issues_of_turns (hw : tree.WellFormed) (fs : FileSystem σ) (s : σ) (operation : Operation)
    (hturns : operation.turns fs tree s ≠ []) :
    TreeView.issues tree (operation.moves fs tree s) =
        (operation.turns fs tree s).filterMap TreeView.turnOwner? ∧
      ∀ now id, operation.MayList now id ↔ now.Open id := by
  cases operation with
  | follow changed =>
    refine ⟨(TreeView.issues_followMoves hw fs changed s).trans ?_, fun _ _ => Iff.rfl⟩
    rw [turns, List.filterMap_cons]
    cases TreeView.turnOwner? (tree, changed) <;> rfl
  | followAll changes =>
    cases changes with
    | root => exact absurd rfl hturns
    | dirs dirs => exact ⟨TreeView.issues_followDirsMoves hw fs dirs s, fun _ _ => Iff.rfl⟩
  | _ => exact absurd rfl hturns

theorem misses_iff (hw : tree.WellFormed) (fs : FileSystem σ) (s : σ) (operation : Operation)
    (issue : TreeView × NodeId) :
    (issue ∈ TreeView.issues tree (operation.moves fs tree s) ∧
        ¬ operation.MayList issue.1 issue.2) ↔
      ∃ changed, (issue.1, changed) ∈ operation.turns fs tree s ∧
        issue.1.owner? changed = some issue.2 ∧ ¬ issue.1.Open issue.2 := by
  by_cases hturns : operation.turns fs tree s = []
  · rw [hturns]
    refine iff_of_false ?_ (by simp)
    exact fun ⟨hissue, hnot⟩ => hnot (mayList_of_issue hw fs s operation hturns issue hissue)
  · obtain ⟨hissues, hmay⟩ := issues_of_turns hw fs s operation hturns
    rw [hissues, hmay, List.mem_filterMap]
    constructor
    · rintro ⟨⟨⟨now, changed⟩, hturn, howner⟩, hnot⟩
      obtain ⟨id, hid, rfl⟩ := Option.map_eq_some_iff.mp howner
      exact ⟨changed, hturn, hid, hnot⟩
    · rintro ⟨changed, hturn, howner, hnot⟩
      refine ⟨⟨(issue.1, changed), hturn, ?_⟩, hnot⟩
      rw [TreeView.turnOwner?, howner]
      rfl

end Operation

namespace Session

/-- In every session what an operation lists is listed for its refreshes, each for the node on the
tree that it was issued on. Such a node is the root, expanded or on the way to the path that is
selected, except exactly that a followed change refreshes its node also while that is collapsed. -/
theorem run_lists_lazily_iff (fs : FileSystem σ) (filter : NameFilter) (volumes : VolumeMap)
    (world : σ × List Request) (actions : List (Action (σ × List Request)))
    (operation : Operation) :
    let x := (start filter volumes world).run fs.recorded actions
    let y := x.act fs.recorded (.operate operation)
    let moves := x.moves fs.recorded (.operate operation)
    let issues := x.tree.issues moves
    TreeView.Trail fs.recorded x.tree x.world moves y.tree y.world ∧
    (∃ dirs, fs.ListedFor issues dirs ∧
      enumerated y.world.2 = enumerated x.world.2 ++ dirs) ∧
    ∀ issue, (issue ∈ issues ∧ ¬ operation.MayList issue.1 issue.2) ↔
      ∃ changed, (issue.1, changed) ∈ operation.turns fs.recorded x.tree x.world ∧
        issue.1.owner? changed = some issue.2 ∧ ¬ issue.1.Open issue.2 := by
  intro x y moves issues
  have hw : x.tree.WellFormed :=
    wellFormed_run (wellFormed_start filter volumes world) fs.recorded actions
  have htrail := operation.trail hw fs.recorded x.world
  obtain ⟨dirs, hdirs, hlisted⟩ := htrail.listedFor hw
  exact ⟨htrail, ⟨dirs, hlisted, hdirs⟩, operation.misses_iff hw fs.recorded x.world⟩

/-- A followed change lists a directory that is collapsed and was never listed before. -/
theorem followed_change_lists_collapsed :
    let fs := Scripted.fileSystem.recorded
    let x := (start .everything ⟨"/net", [], "", "", [], []⟩ (twoBranches, [])).run fs
      [.operate (.select "/a" 2)]
    let y := x.act fs (.operate (.follow "/a/b"))
    x.tree.children 2 = [] ∧ y.tree.children 2 = [4] ∧
      enumerated y.world.2 = enumerated x.world.2 ++ ["/a/b"] ∧
      ¬ ∀ issue ∈ x.tree.issues (x.moves fs (.operate (.follow "/a/b"))),
        (Operation.follow "/a/b").MayList issue.1 issue.2 := by
  intro fs x y
  refine ⟨by decide +kernel, by decide +kernel, by decide +kernel, fun hlazy => ?_⟩
  have hw : x.tree.WellFormed := wellFormed_run (wellFormed_start ..) fs _
  have howner : x.tree.owner? "/a/b" = some 2 := by decide +kernel
  have hroot : x.tree.root = some 1 := by decide +kernel
  have hcollapsed : x.tree.arena.isExpanded 2 = false := by decide +kernel
  have hissues : x.tree.issues (x.moves fs (.operate (.follow "/a/b"))) = [(x.tree, 2)] := by
    refine (TreeView.issues_followMoves hw fs "/a/b" x.world).trans ?_
    rw [TreeView.turnOwner?, howner]
    rfl
  rw [hissues] at hlazy
  cases hlazy (x.tree, 2) List.mem_cons_self with
  | inl h => exact absurd (hroot.symm.trans h) (by decide)
  | inr h => exact absurd (hcollapsed.symm.trans h) (by decide)

end Session

end LazyTree
