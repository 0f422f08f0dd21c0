import LazyTree.FileSystem.Scripted
import LazyTree.Proofs.Flags
import LazyTree.Proofs.Identity

/-!
What is left of a refresh that fails. A failure of the refreshed node itself leaves nothing but the
count of refreshes behind. In a recursive refresh each descendant fails for itself: it keeps what
hangs below it, it is counted, and the others are refreshed all the same.
-/
namespace LazyTree
variable {σ : Type}

theorem Arena.Under.comparable {arena : Arena} {top other id : NodeId} (h : arena.Under top id)
    (h' : arena.Under other id) : arena.Under top other ∨ arena.Under other top := by
  induction h with
  | self _ => exact .inr h'
  | @step id parent node live up above ih =>
    by_cases heq : id = other
    · exact .inl (heq ▸ .step live up above)
    · obtain ⟨parent', up', above'⟩ := h'.up heq live
      obtain rfl : parent = parent' := Option.some.inj (up.symm.trans up')
      exact ih above'

namespace TreeView
variable {tree mid last before : TreeView} {id top i child : NodeId} {node : Node}
variable {failed visited queue queued : List NodeId} {start : Arena}

theorem Stays.of_under (hw : tree.WellFormed) (hself : ∃ was now, tree.node? i = some was ∧
      last.node? i = some now ∧ now.path = was.path ∧ now.expanded = was.expanded ∧
      now.children = was.children)
    (hbelow : ∀ j, tree.arena.Under i j → j ≠ i → last.arena.get? j = tree.arena.get? j) :
    tree.Stays last i :=
  ⟨hself, fun j hj => hbelow j ((hw.linked.reaches_iff_under fun _ _ => rfl).mp hj)⟩

theorem Stays.of_untouched (hw : tree.WellFormed) (hlive : tree.arena.get? i = some node)
    (h : ∀ j, tree.arena.Under i j → last.arena.get? j = tree.arena.get? j) : tree.Stays last i :=
  .of_under hw ⟨node, node, hlive, (h i (.self hlive)).trans hlive, rfl, rfl, rfl⟩
    fun j hj _ => h j hj

theorem Stays.children_eq (h : tree.Stays last i) : last.children i = tree.children i := by
  obtain ⟨was, now, hwas, hnow, _, _, hchildren⟩ := h.itself
  exact (Arena.childrenOf_of_live hnow).trans (hchildren.trans (Arena.childrenOf_of_live hwas).symm)

theorem Stays.isExpanded_eq (h : tree.Stays last i) :
    last.arena.isExpanded i = tree.arena.isExpanded i := by
  obtain ⟨was, now, hwas, hnow, _, hexpanded, _⟩ := h.itself
  exact (Arena.isExpanded_of_live hnow).trans (hexpanded.trans (Arena.isExpanded_of_live hwas).symm)

theorem Stays.reaches (h : tree.Stays last i) {j : NodeId} (hj : tree.arena.Reaches i j) :
    last.arena.Reaches i j := by
  obtain ⟨was, now, hwas, hnow, _, _, hchildren⟩ := h.itself
  induction hj with
  | self _ => exact .self hnow
  | @child above j node _ hr listing listed live ih =>
    by_cases hji : j = i
    · rw [hji]
      exact .self hnow
    · have hlive := (h.below j (.child hr listing listed live) hji).trans live
      by_cases hai : above = i
      · subst hai
        obtain rfl := Option.some.inj (listing.symm.trans hwas)
        exact .child (.self hnow) hnow (hchildren ▸ listed) hlive
      · exact .child ih ((h.below above hr hai).trans listing) listed hlive

theorem Stays.trans (h : tree.Stays mid i) (h' : mid.Stays last i) : tree.Stays last i := by
  obtain ⟨was, now, hwas, hnow, hpath, hexpanded, hchildren⟩ := h.itself
  obtain ⟨now', later, hnow', hlater, hpath', hexpanded', hchildren'⟩ := h'.itself
  obtain rfl := Option.some.inj (hnow.symm.trans hnow')
  refine ⟨⟨was, later, hwas, hlater, hpath'.trans hpath, hexpanded'.trans hexpanded,
    hchildren'.trans hchildren⟩, fun j hj hne => ?_⟩
  exact (h'.below j (h.reaches hj) hne).trans (h.below j hj hne)

theorem Stays.of_child (h : tree.Stays last i) (hw : tree.WellFormed)
    (hc : child ∈ tree.children i) : tree.Stays last child := by
  obtain ⟨was, hwas, _⟩ := hw.linked.owned hc
  obtain ⟨node, hnode, hlisted⟩ := Arena.live_of_mem_childrenOf hc
  refine .of_untouched hw hwas fun j hj => h.below j ?_ ?_
  · exact .of_child hnode hlisted ((hw.linked.reaches_iff_under fun _ _ => rfl).mpr hj)
  · exact Nat.ne_of_gt (Nat.lt_of_lt_of_le (hw.linked.lower hc) (hw.linked.le_of_under hj))

theorem stays_bumped (hw : tree.WellFormed) (hlive : tree.arena.get? id = some node) :
    tree.Stays (tree.bumped id) id :=
  .of_under hw ⟨node, _, hlive, get?_bumped hlive, rfl, rfl, rfl⟩
    fun _ _ hne => Arena.get?_modify_of_ne hne _

theorem stays_of_visit (hw : tree.WellFormed) (hlive : tree.arena.get? id = some node)
    (fs : FileSystem σ) (lister : Lister) (recursive always : Bool) (s : σ)
    (hbefore : child ∈ tree.children id) (hexpanded : tree.arena.isExpanded child = true)
    (hafter : child ∈ (visit fs lister id recursive always tree s).tree.children id) :
    tree.Stays (visit fs lister id recursive always tree s).tree child := by
  obtain ⟨was, hwas, _⟩ := hw.linked.owned hbefore
  have hlower (j : NodeId) (hj : tree.arena.Under child j) : j ≠ id :=
    Nat.ne_of_gt (Nat.lt_of_lt_of_le (hw.linked.lower hbefore) (hw.linked.le_of_under hj))
  have hbumped : tree.Stays (tree.bumped id) child :=
    .of_untouched hw hwas fun j hj => Arena.get?_modify_of_ne (hlower j hj) _
  rcases visit_of_live hw hlive fs lister recursive always s with
    ⟨e, _, heq⟩ | ⟨listing, outcome, listed, children, _, happlied, _, heq⟩
  · rw [heq]
    exact hbumped
  · rw [heq, children_visitChecks] at hafter
    rw [heq]
    have hlisted : listed.WellFormed := happlied.wellFormed (hw.bumped id) (get?_bumped hlive)
    have hchildren : (tree.bumped id).children id = tree.children id :=
      Arena.childrenOf_modify (fun _ => by rfl) id
    have hstays : tree.Stays listed child :=
      hbumped.trans (happlied.stays (hw.bumped id) (hchildren ▸ hbefore) hafter)
    obtain ⟨_, now, _, hnow, _⟩ := hstays.itself
    -- The checks see collapsed children of `id` only, and nothing else below `child` is its child.
    refine hstays.trans (.of_untouched hlisted hnow fun j hj => ?_)
    refine get?_visitChecks_of_expanded (fun hmem => ?_) ..
    rcases (hlisted.linked.under_listed_iff hmem).mp hj with rfl | hu
    · exact hstays.isExpanded_eq.trans hexpanded
    · exact absurd (hlisted.linked.lower hafter) (Nat.not_lt.mpr (hlisted.linked.le_of_under hu))

/-- The trees that the recursive refreshes of the operations set out from. -/
inductive Prepared (tree : TreeView) : TreeView → Prop where
  | plain : Prepared tree tree
  | opened (id : NodeId) : Prepared tree (tree.setExpanded id true)
  | refiltered (filter : NameFilter) : Prepared tree { tree with filter := filter }

theorem Prepared.wellFormed (h : tree.Prepared before) (hw : tree.WellFormed) :
    before.WellFormed := by
  cases h with
  | plain => exact hw
  | opened id => exact hw.setExpanded id true
  | refiltered filter => exact hw.refiltered filter

/-- A visit of the next node leaves what failed or still waits as it was, with all below it. -/
theorem Walk.stays (h : Walk top start failed visited (id :: queue) tree)
    (hlive : tree.arena.get? id = some node) (hi : i ∈ failed ++ queue) (fs : FileSystem σ)
    (lister : Lister) (recursive always : Bool) (s : σ) :
    tree.Stays (visit fs lister id recursive always tree s).tree i := by
  have hvisited : i ∈ visited ++ queue :=
    (h.failed_visited.append_right queue).subset hi
  have hunlisted : i ∈ failed ++ id :: queue :=
    ((List.sublist_cons_self id queue).append_left failed).subset hi
  have hmem {j : NodeId} (hj : j ∈ visited ++ queue) : j ∈ visited ++ id :: queue :=
    ((List.sublist_cons_self id queue).append_left visited).subset hj
  have hne := h.visited_ne hvisited
  obtain ⟨n, hn⟩ := h.live i (hmem hvisited)
  refine .of_untouched h.wellFormed hn fun j hj => ?_
  obtain ⟨m, hm⟩ := hj.live
  refine (visit_untouched h.wellFormed hlive fs lister recursive always s hm fun hu => ?_).trans
    hm.symm
  rcases hj.comparable hu with hu | hu
  · exact h.not_under_unlisted hunlisted (List.mem_append_right _ List.mem_cons_self) hne.symm hu
  · exact h.not_under_of_mem hvisited hu

/-- What a recursive refresh has kept of the tree `before` it while it is at work. -/
structure Spared (before : TreeView) (failed visited queue : List NodeId) (tree : TreeView) :
    Prop where
  evolves : ∃ issued, Arena.Evolves issued before.arena tree.arena
  stays : ∀ i ∈ failed ++ queue, before.Stays tree i
  /-- Whatever was open below a listed node has its turn. -/
  reached : ∀ parent ∈ visited, parent ∉ failed → ∀ child ∈ tree.children parent,
    before.arena.isExpanded child = true → child ∈ visited ++ queue

namespace Spared

theorem fail (h : Spared before failed visited (id :: queue) tree)
    (hwalk : Walk top start failed visited (id :: queue) tree)
    (hlive : tree.arena.get? id = some node) {fs : FileSystem σ} {lister : Lister} {s : σ}
    {e : Failure} (he : (visit fs lister id true false tree s).answer = .error e) :
    Spared before (failed ++ [id]) (visited ++ [id]) queue
      (visit fs lister id true false tree s).tree := by
  obtain ⟨hbumped, _⟩ := failed_of_visit hwalk.wellFormed hlive he
  have hmoved : (visited ++ [id]) ++ queue = visited ++ id :: queue := by simp
  obtain ⟨_, hevolves⟩ := h.evolves
  constructor
  case evolves =>
    exact ⟨_, hevolves.trans ((visit_run fs lister id true false tree s).evolves hwalk.wellFormed)⟩
  case stays =>
    intro i hi
    by_cases hid : i = id
    · subst hid
      rw [hbumped]
      exact (h.stays i (List.mem_append_right _ List.mem_cons_self)).trans
        (stays_bumped hwalk.wellFormed hlive)
    · have hi' : i ∈ failed ++ queue := by
        simp only [List.mem_append, List.mem_singleton, hid, or_false] at hi ⊢
        exact hi
      refine (h.stays i ?_).trans (hwalk.stays hlive hi' fs lister true false s)
      exact ((List.sublist_cons_self id queue).append_left failed).subset hi'
  case reached =>
    intro parent hparent hnot child hc hexpanded
    simp only [List.mem_append, List.mem_singleton, not_or] at hparent hnot
    rw [hbumped] at hc
    rw [hmoved]
    exact h.reached parent (hparent.resolve_right hnot.2) hnot.1 child
      ((Arena.childrenOf_modify (fun _ => by rfl) parent).subst hc) hexpanded

theorem step (h : Spared before failed visited (id :: queue) tree)
    (hwalk : Walk top start failed visited (id :: queue) tree) (hw : before.WellFormed)
    (hlive : tree.arena.get? id = some node) {fs : FileSystem σ} {lister : Lister} {s : σ}
    {outcome : MergeOutcome}
    (hv : (visit fs lister id true false tree s).answer = .ok (.applied outcome)) :
    Spared before failed (visited ++ [id]) (queue ++ outcome.cascade)
      (visit fs lister id true false tree s).tree := by
  have hstepped := stepped_of_visit hwalk.wellFormed hlive hv
  have hid : before.Stays tree id := h.stays id (List.mem_append_right _ List.mem_cons_self)
  obtain ⟨_, hevolves⟩ := h.evolves
  have hevolves' := hevolves.trans
    ((visit_run fs lister id true false tree s).evolves hwalk.wellFormed)
  constructor
  case evolves => exact ⟨_, hevolves'⟩
  case stays =>
    intro i hi
    rw [← List.append_assoc] at hi
    rcases List.mem_append.mp hi with hi | hi
    · refine (h.stays i ?_).trans (hwalk.stays hlive hi fs lister true false s)
      exact ((List.sublist_cons_self id queue).append_left failed).subset hi
    · obtain ⟨hafter, hbefore, hexpanded⟩ := hstepped.of_queued hwalk.wellFormed hi
      refine (hid.of_child hw (hid.children_eq ▸ hbefore)).trans ?_
      exact stays_of_visit hwalk.wellFormed hlive fs lister true false s hbefore hexpanded hafter
  case reached =>
    intro parent hparent hnot child hc hexpanded
    rcases List.mem_append.mp hparent with hparent | hparent
    · rw [hwalk.children_kept hstepped hparent] at hc
      have hmem := h.reached parent hparent hnot child hc hexpanded
      simp only [List.mem_append, List.mem_cons, List.not_mem_nil, or_false] at hmem ⊢
      tauto
    · obtain rfl := List.mem_singleton.mp hparent
      -- An open child that is listed now was a child before, and stayed as it was until now.
      obtain ⟨_, hwas, _⟩ := Arena.live_of_isExpanded hexpanded
      have hbefore := hevolves'.listed_before hw.linked hstepped.wellFormed.linked hc hwas
      have hnow := (hid.of_child hw hbefore).isExpanded_eq.trans hexpanded
      have hmem : child ∈ outcome.cascade := by
        rw [hstepped.queues, List.mem_filter]
        exact ⟨hc, hnow⟩
      exact List.mem_append_right _ (List.mem_append_right _ hmem)

theorem first (hw : before.WellFormed) (hlive : before.arena.get? id = some node)
    {fs : FileSystem σ} {lister : Lister} {s : σ} {outcome : MergeOutcome}
    (hv : (visit fs lister id true false before s).answer = .ok (.applied outcome)) :
    Spared before [] [id] outcome.cascade (visit fs lister id true false before s).tree := by
  have hstepped := stepped_of_visit hw hlive hv
  constructor
  case evolves => exact hstepped.evolves
  case stays =>
    intro i hi
    obtain ⟨hafter, hbefore, hexpanded⟩ := hstepped.of_queued hw hi
    exact stays_of_visit hw hlive fs lister true false s hbefore hexpanded hafter
  case reached =>
    intro parent hparent _ child hc hexpanded
    obtain rfl := List.mem_singleton.mp hparent
    refine List.mem_append_right _ ?_
    rw [hstepped.queues, List.mem_filter]
    exact ⟨hc, hexpanded⟩

theorem kept (hw : before.WellFormed) (fs : FileSystem σ) (lister : Lister) :
    Kept fs lister fun failed visited queue now _ => Spared before failed visited queue now :=
  fun hwalk hlive h => ⟨fun he => h.fail hwalk hlive he, fun hv => h.step hwalk hw hlive hv⟩

end Spared

/-- A recursive refresh that answers spares what it could not list. -/
theorem spared_of_refresh (hw : tree.WellFormed) {fs : FileSystem σ} {s : σ} {totals : Totals}
    (h : (refresh fs id true tree s).1 = .ok totals) :
    let moves := refreshMoves fs id true false tree s
    Spared tree (failedBy moves) (issuedBy moves) [] (refresh fs id true tree s).2.1 ∧
      (failedBy moves).Nodup ∧ failedBy moves ⊆ issuedBy moves ∧
      totals.failed = (failedBy moves).length ∧
      totals.nodes + totals.failed = (issuedBy moves).length := by
  intro moves
  obtain ⟨⟨start, hwalk⟩, hspared, hfailed, hvisits⟩ := walk_of_refresh
    (motive := fun failed visited queue now _ => Spared tree failed visited queue now)
    (Spared.kept hw fs tree.lister) hw (Prod.ext h rfl) (fun hlive hv => .first hw hlive hv)
  have hnodup := hwalk.nodup
  rw [List.append_nil] at hnodup
  exact ⟨hspared, hwalk.failed_visited.nodup hnodup, hwalk.failed_visited.subset, hfailed, hvisits⟩

theorem bumped_of_dead (h : tree.arena.get? id = none) : tree.bumped id = tree :=
  congrArg (fun arena => { tree with arena := arena }) (Arena.modify_of_dead h _)

theorem setExpanded_of_dead (h : tree.arena.get? id = none) (expanded : Bool) :
    tree.setExpanded id expanded = tree :=
  congrArg (fun arena => { tree with arena := arena }) (Arena.modify_of_dead h _)

theorem setExpanded_of_expanded (h : tree.arena.isExpanded id = true) :
    tree.setExpanded id true = tree := by
  obtain ⟨node, hlive, hexpanded⟩ := Arena.live_of_isExpanded h
  refine congrArg (fun arena => { tree with arena := arena }) (Arena.modify_eq_self hlive ?_)
  rw [← hexpanded]

theorem setExpanded_bumped_setExpanded (tree : TreeView) (id : NodeId) (first last : Bool) :
    ((tree.setExpanded id first).bumped id).setExpanded id last =
      (tree.bumped id).setExpanded id last := by
  refine congrArg (fun arena => { tree with arena := arena }) ?_
  simp only [TreeView.setExpanded, TreeView.bumped, TreeView.modify, Arena.modify_modify]

theorem refresh_error (hw : tree.WellFormed) {fs : FileSystem σ} {recursive : Bool} {s : σ}
    {e : Failure} (h : (refresh fs id recursive tree s).1 = .error e) :
    (refresh fs id recursive tree s).2.1 = tree.bumped id := by
  rw [refresh, refreshWith_eq] at h ⊢
  cases hanswer : (visit fs tree.lister id recursive false tree s).answer with
  | error e =>
    cases hlive : tree.arena.get? id with
    | none => simp only [visit_of_dead hlive, bumped_of_dead hlive]
    | some node =>
      simp only [hanswer]
      exact (failed_of_visit hw hlive hanswer).1
  | ok application => cases application <;> simp [hanswer] at h

theorem follow_error (hw : tree.WellFormed) {fs : FileSystem σ} {changed : String} {s : σ}
    {e : Failure} (h : (follow fs changed tree s).1 = .error e) :
    ∃ id, tree.owner? changed = some id ∧ (follow fs changed tree s).2.1 = tree.bumped id := by
  cases howner : tree.owner? changed with
  | none => simp [follow_of_no_owner howner] at h
  | some id =>
    rw [follow_of_owner howner] at h ⊢
    refine ⟨id, rfl, ?_⟩
    cases hanswer : (refresh fs id false tree s).1 with
    | error e => exact refresh_error hw hanswer
    | ok totals => simp [hanswer, Except.map] at h

theorem followAll_root_error (hw : tree.WellFormed) {fs : FileSystem σ} {s : σ} {e : Failure}
    (h : (followAll fs .root tree s).1 = .error e) :
    ∃ root, tree.root = some root ∧ (followAll fs .root tree s).2.1 = tree.bumped root := by
  unfold followAll at h ⊢
  cases hroot : tree.root with
  | none => simp [hroot] at h
  | some root =>
    have hrefresh := @refresh_error _ tree root hw fs true s
    simp only [hroot] at h
    refine ⟨root, rfl, ?_⟩
    dsimp only
    generalize refresh fs root true tree s = result at h hrefresh ⊢
    obtain ⟨e | totals, refreshed, world⟩ := result
    · exact hrefresh rfl
    · simp at h

theorem expand_error (hw : tree.WellFormed) (hopen : tree.RootOpen) {fs : FileSystem σ} {s : σ}
    {e : Failure} (h : (expand fs id tree s).1 = .error e) :
    (expand fs id tree s).2.1 =
      if tree.root = some id then tree.bumped id else (tree.bumped id).setExpanded id false := by
  unfold expand at h ⊢
  split at h
  case isTrue hholds =>
    rw [if_pos hholds]
    have hrefresh := @refresh_error _ _ id (hw.setExpanded id true) fs true s
    generalize refresh fs id true (tree.setExpanded id true) s = result at h hrefresh ⊢
    obtain ⟨e | totals, refreshed, world⟩ := result
    · obtain rfl : refreshed = (tree.setExpanded id true).bumped id := hrefresh rfl
      dsimp only
      by_cases hroot : tree.root = some id
      · rw [if_pos hroot, setExpanded_of_expanded (hopen id hroot)]
        exact if_pos hroot
      · rw [if_neg hroot, ← setExpanded_bumped_setExpanded tree id true]
        exact if_neg hroot
    · simp at h
  case isFalse hholds =>
    have hdead : tree.arena.get? id = none := by
      rw [← Option.not_isSome_iff_eq_none]
      exact hholds
    rw [if_neg hholds, bumped_of_dead hdead, setExpanded_of_dead hdead, ite_self]

theorem applyFetched_error (tree : TreeView) (ticket : Ticket) (e : Failure) :
    (tree.applyFetched ticket (.error e)).2 = tree := by
  unfold applyFetched
  split
  · rfl
  · split <;> rfl

end TreeView

namespace Session
variable {fs : FileSystem σ}

/-- Wherever a refresh fails, nothing but its node's count of refreshes has changed, and for an
expansion whether the node is expanded. A recursive refresh leaves each descendant that fails as it
was before, with all below it, counts it once, and refreshes every open child that it comes to. -/
theorem run_failure_keeps (fs : FileSystem σ) (filter : NameFilter) (volumes : VolumeMap)
    (world : σ) (actions : List (Action σ)) :
    let x := (start filter volumes world).run fs actions
    (∀ id, x.tree.node? id = none → x.tree.bumped id = x.tree) ∧
    (∀ id recursive e, (x.tree.refresh fs id recursive x.world).1 = .error e →
      (x.tree.refresh fs id recursive x.world).2.1 = x.tree.bumped id) ∧
    (∀ changed e, (x.tree.follow fs changed x.world).1 = .error e →
      ∃ id, x.tree.owner? changed = some id ∧
        (x.tree.follow fs changed x.world).2.1 = x.tree.bumped id) ∧
    (∀ e, (x.tree.followAll fs .root x.world).1 = .error e →
      ∃ root, x.tree.root = some root ∧
        (x.tree.followAll fs .root x.world).2.1 = x.tree.bumped root) ∧
    (∀ id e, (x.tree.expand fs id x.world).1 = .error e →
      (x.tree.expand fs id x.world).2.1 =
        if x.tree.root = some id then x.tree.bumped id
        else (x.tree.bumped id).setExpanded id false) ∧
    (∀ ticket e, (x.tree.applyFetched ticket (.error e)).2 = x.tree) ∧
    ∀ before, x.tree.Prepared before → ∀ id totals,
      (before.refresh fs id true x.world).1 = .ok totals →
      let after := (before.refresh fs id true x.world).2.1
      let moves := before.refreshMoves fs id true false x.world
      TreeView.Trail fs before x.world moves after (before.refresh fs id true x.world).2.2 ∧
      (∀ i ∈ failedBy moves, before.Stays after i) ∧
      (failedBy moves).Nodup ∧ failedBy moves ⊆ issuedBy moves ∧
      totals.failed = (failedBy moves).length ∧
      totals.nodes + totals.failed = (issuedBy moves).length ∧
      ∀ parent ∈ issuedBy moves, parent ∉ failedBy moves → ∀ child ∈ after.children parent,
        before.arena.isExpanded child = true → child ∈ issuedBy moves := by
  intro x
  have hw : x.tree.WellFormed := wellFormed_run (wellFormed_start filter volumes world) fs actions
  have hopen : x.tree.RootOpen := rootOpen_run (rootOpen_start filter volumes world)
    (wellFormed_start filter volumes world) fs actions
  refine ⟨fun id => TreeView.bumped_of_dead, fun id recursive e => TreeView.refresh_error hw,
    fun changed e => TreeView.follow_error hw, fun e => TreeView.followAll_root_error hw,
    fun id e => TreeView.expand_error hw hopen, TreeView.applyFetched_error x.tree, ?_⟩
  intro before hbefore id totals hok after moves
  obtain ⟨hspared, hnodup, hsub, hfailed, hvisits⟩ :=
    TreeView.spared_of_refresh (hbefore.wellFormed hw) hok
  refine ⟨TreeView.refresh_trail (hbefore.wellFormed hw) fs id true x.world,
    fun i hi => hspared.stays i (List.mem_append_left _ hi), hnodup, hsub, hfailed, hvisits,
    fun parent hparent hnot child hc hexpanded => ?_⟩
  have hreached := hspared.reached parent hparent hnot child hc hexpanded
  rwa [List.append_nil] at hreached

/-- A directory with two children that hold one directory each. -/
def twoBranches : Scripted :=
  { Scripted.empty with
    listings :=
      [("/a", [.directory "/a/b", .directory "/a/c"]), ("/a/b", [.directory "/a/b/d"]),
        ("/a/c", [.directory "/a/c/e"])] }

/-- One of two open children cannot be listed any more. -/
theorem closed_child_stays :
    let x := (start .everything ⟨"/net", [], "", "", [], []⟩ twoBranches).run Scripted.fileSystem
      [.operate (.select "/a" 2), .operate (.expand 2), .operate (.expand 3),
        .drift { twoBranches with failures := [("/a/b", .permissionDenied)] }]
    (x.tree.refresh Scripted.fileSystem 1 true x.world).1 = .ok ⟨2, 0, 0, 1, false, 1⟩ ∧
      x.tree.Stays (x.tree.refresh Scripted.fileSystem 1 true x.world).2.1 2 :=
  ⟨by decide +kernel,
    ((run_failure_keeps Scripted.fileSystem .everything ⟨"/net", [], "", "", [], []⟩ twoBranches
      [.operate (.select "/a" 2), .operate (.expand 2), .operate (.expand 3),
        .drift { twoBranches with failures := [("/a/b", .permissionDenied)] }]).2.2.2.2.2.2
      _ .plain 1 ⟨2, 0, 0, 1, false, 1⟩ (by decide +kernel)).2.1 2 (by decide +kernel)⟩

end Session

end LazyTree
