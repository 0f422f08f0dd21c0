import LazyTree.Proofs.Failures

/-!
How far a refresh reaches. It leaves everything alone that does not lie below its node, it expands
nothing, and it forgets a selection only with the selected node. A refresh that is not recursive
drops whole subtrees below its node, and of what it keeps it changes no more than the handles and
the checked flags of the node's own children.
-/
namespace LazyTree

namespace Arena
variable {a b : Arena} {issued : List NodeId} {top id : NodeId} {node : Node}

theorem Evolves.under_after (h : Evolves issued a b) (hb : b.Linked) (hu : a.Under top id)
    (hlive : b.get? id = some node) : b.Under top id := by
  induction hu generalizing node with
  | self _ => exact .self hlive
  | step live up _ ih =>
    obtain ⟨was, hwas, _, hparent, _⟩ := h.old hlive (id_bounds live).2
    obtain rfl := Option.some.inj (hwas.symm.trans live)
    obtain ⟨_, habove⟩ := hb.parent_live hlive (hparent.trans up)
    exact .step hlive (hparent.trans up) (ih habove)

theorem Evolves.under_before (h : Evolves issued a b) (ha : a.Linked) (hu : b.Under top id)
    (hlive : a.get? id = some node) : a.Under top id := by
  induction hu generalizing node with
  | self _ => exact .self hlive
  | step live up _ ih =>
    obtain ⟨was, hwas, _, hparent, _⟩ := h.old live (id_bounds hlive).2
    have hup := hparent.symm.trans up
    obtain ⟨_, habove⟩ := ha.parent_live hwas hup
    exact .step hwas hup (ih habove)

end Arena

namespace TreeView
variable {σ : Type} {fs : FileSystem σ} {tree last : TreeView} {move : Move} {moves : List Move}
variable {id i : NodeId} {n now was : Node} {queue : List NodeId} {s : σ}

theorem selected_eq_filter
    (hkeep : ∀ {j}, last.selected = some j →
      tree.selected = some j ∧ ∃ node, last.arena.get? j = some node)
    (hstill : ∀ {j node}, tree.selected = some j → last.arena.get? j = some node →
      last.selected = some j) : last.selected = tree.selected.filter last.holds := by
  refine Option.ext fun j => ?_
  rw [Option.filter_eq_some_iff, holds, Arena.contains_iff]
  refine ⟨hkeep, fun h => ?_⟩
  obtain ⟨hs, node, hlive⟩ := h
  exact hstill hs hlive

theorem selected_act (hw : tree.WellFormed) (hmove : move.refreshes = true) :
    (tree.act move).selected = tree.selected.filter (tree.act move).holds := by
  have hafter : (tree.act move).WellFormed := hw.act_of_live (by rintro _ rfl; cases hmove)
  have hsame (h : (tree.act move).selected = tree.selected) :
      (tree.act move).selected = tree.selected.filter (tree.act move).holds :=
    selected_eq_filter (fun hs => ⟨h ▸ hs, hafter.selected_live hs⟩) fun hs _ => h.trans hs
  cases move with
  | issue id recursive =>
    refine hsame ?_
    rw [act, issue_snd]
    rfl
  | apply ticket fetched =>
    rcases applyFetched_cases hw ticket fetched with heq | ⟨_, _, _, _, _, _, happlied⟩
    · refine hsame ?_
      rw [act, heq]
    · exact selected_eq_filter happlied.selected happlied.still_selected
  | note id found =>
    refine hsame ?_
    rw [act, noteExpandable_eq]
    rfl
  | _ => cases hmove

theorem Run.selected_eq (h : Run fs tree moves last) (hw : tree.WellFormed)
    (hmoves : moves.all Move.refreshes = true) :
    last.selected = tree.selected.filter last.holds := by
  induction h with
  | nil => exact selected_eq_filter (fun hs => ⟨hs, hw.selected_live hs⟩) fun hs _ => hs
  | @cons tree last move moves allowed rest ih =>
    rw [List.all_cons, Bool.and_eq_true] at hmoves
    have hnext := hw.act allowed
    have hfirst := selected_act hw hmoves.1
    have hrest := ih hnext hmoves.2
    refine selected_eq_filter (fun {j} hs => ?_) fun {j node} hs hlive => ?_
    · refine ⟨?_, (rest.wellFormed hnext).selected_live hs⟩
      rw [hrest, hfirst, Option.filter_filter] at hs
      exact (Option.filter_eq_some_iff.mp hs).1
    · -- Ids do not come back, so a node that lives at last lived in between.
      obtain ⟨_, hwas⟩ := hw.selected_live hs
      have hold := Nat.lt_of_lt_of_le (Arena.id_bounds hwas).2 (evolves_act hw move).grows
      obtain ⟨mid, hmid, _⟩ := (rest.evolves hnext).old hlive hold
      rw [hrest, hfirst, Option.filter_filter, Option.filter_eq_some_iff, hs, Bool.and_eq_true]
      exact ⟨rfl, Arena.contains_iff.mpr ⟨mid, hmid⟩, Arena.contains_iff.mpr ⟨node, hlive⟩⟩

/-- What a recursive refresh of `top` keeps while it is at work: `i` is as it was, and what is still
to be refreshed lies below `top`. -/
structure Beside (before : TreeView) (top i : NodeId) (n : Node) (queue : List NodeId)
    (tree : TreeView) : Prop where
  evolves : ∃ issued, Arena.Evolves issued before.arena tree.arena
  same : tree.arena.get? i = some n
  below : ∀ j ∈ queue, tree.arena.Under top j

theorem Beside.kept (hw : tree.WellFormed) (hi : tree.arena.get? i = some n)
    (hu : ¬ tree.arena.Under id i) (fs : FileSystem σ) (lister : Lister) :
    Kept fs lister fun _ _ queue now _ => Beside tree id i n queue now := by
  intro top start failed visited queue now s j node hwalk hlive hm
  obtain ⟨⟨issued, hevolves⟩, hsame, hbelow⟩ := hm
  have hj := hbelow j List.mem_cons_self
  have hnot : ¬ now.arena.Under j i := fun h => hu (hevolves.under_before hw.linked (h.trans hj) hi)
  have hrun := visit_run fs lister j true false now s
  have hlast := hrun.wellFormed hwalk.wellFormed
  have hstays {k : NodeId} {other : Node} (hk : now.arena.get? k = some other) :=
    visit_untouched hwalk.wellFormed hlive fs lister true false s hk
  have hqueue : ∀ k ∈ queue,
      (visit fs lister j true false now s).tree.arena.Under id k := by
    intro k hk
    obtain ⟨waiting, hwaiting⟩ := (hbelow k (List.mem_cons_of_mem j hk)).live
    refine (hrun.evolves hwalk.wellFormed).under_after hlast.linked
      (hbelow k (List.mem_cons_of_mem j hk)) (hstays hwaiting ?_)
    exact hwalk.not_under_of_mem (List.mem_append_right _ hk)
  have hnext : ∃ issued, Arena.Evolves issued tree.arena
      (visit fs lister j true false now s).tree.arena :=
    ⟨_, hevolves.trans (hrun.evolves hwalk.wellFormed)⟩
  refine ⟨fun _ => ⟨hnext, hstays hsame hnot, hqueue⟩,
    fun hanswer => ⟨hnext, hstays hsame hnot, fun k hk => ?_⟩⟩
  rcases List.mem_append.mp hk with hk | hk
  · exact hqueue k hk
  · -- The nodes that are queued now are children of a node below `id`.
    have hstepped := stepped_of_visit hwalk.wellFormed hlive hanswer
    obtain ⟨hafter, hbefore, _⟩ := hstepped.of_queued hwalk.wellFormed hk
    obtain ⟨child, hchild, _⟩ := hlast.linked.owned hafter
    exact (hrun.evolves hwalk.wellFormed).under_after hlast.linked
      (hwalk.wellFormed.linked.under_of_listed hbefore hj) hchild

theorem refresh_untouched (hw : tree.WellFormed) (hi : tree.arena.get? i = some n)
    (hu : ¬ tree.arena.Under id i) (fs : FileSystem σ) (recursive : Bool) (s : σ) :
    (refresh fs id recursive tree s).2.1.arena.get? i = some n := by
  cases hlive : tree.arena.get? id with
  | none =>
    rw [refresh, refreshWith_eq, visit_of_dead hlive]
    exact hi
  | some node =>
    have hvisit := visit_untouched hw hlive fs tree.lister recursive false s hi hu
    cases recursive with
    | false =>
      rw [refresh, refreshWith_false_tree hw]
      exact hvisit
    | true =>
      cases hanswer : (refresh fs id true tree s).1 with
      | error e =>
        rw [refresh_error hw hanswer]
        have hne : i ≠ id := by
          rintro rfl
          exact hu (.self hi)
        exact (Arena.get?_modify_of_ne hne _).trans hi
      | ok totals =>
        have hfirst {outcome : MergeOutcome}
            (hv : (visit fs tree.lister id true false tree s).answer = .ok (.applied outcome)) :
            Beside tree id i n outcome.cascade
              (visit fs tree.lister id true false tree s).tree := by
          have hstepped := stepped_of_visit hw hlive hv
          refine ⟨hstepped.evolves, hvisit, fun k hk => ?_⟩
          obtain ⟨_, hid⟩ := hstepped.live
          exact hstepped.wellFormed.linked.under_of_listed (hstepped.of_queued hw hk).1 (.self hid)
        obtain ⟨_, hbeside, _⟩ := walk_of_refresh
          (motive := fun _ _ queue now _ => Beside tree id i n queue now)
          (Beside.kept hw hi hu fs tree.lister) hw (Prod.ext hanswer rfl) fun _ hv => hfirst hv
        exact hbeside.same

/-- What any refresh of `id` leaves alone. -/
structure LocalTo (tree last : TreeView) (id : NodeId) : Prop where
  same_root : last.root = tree.root
  outside : ∀ i node, tree.node? i = some node → ¬ tree.arena.Reaches id i →
    last.node? i = some node
  expanded_before : ∀ i, last.arena.isExpanded i = true → tree.arena.isExpanded i = true
  selected : last.selected = tree.selected.filter last.holds

theorem localTo_refresh (hw : tree.WellFormed) (fs : FileSystem σ) (id : NodeId)
    (recursive : Bool) (s : σ) : tree.LocalTo (refresh fs id recursive tree s).2.1 id := by
  have hrun := (refresh_course hw fs id recursive s).run
  have hrefreshes := refreshes_refreshMoves fs id recursive false tree s
  refine ⟨root_of_frame (frame_refresh hw fs id recursive s), fun i node hlive hnot => ?_,
    fun i => hrun.expanded_before hw hrefreshes, hrun.selected_eq hw hrefreshes⟩
  exact refresh_untouched hw hlive
    (fun hu => hnot ((hw.linked.reaches_iff_under fun _ _ => rfl).mpr hu)) fs recursive s

/-- What a refresh of `id` alone changes: whole subtrees of dropped children go, and the children
that stay may get another handle and, while collapsed, another flag. -/
structure OneLevel (tree last : TreeView) (id : NodeId) : Prop where
  gone_iff : ∀ i node, tree.node? i = some node → (last.node? i = none ↔
    ∃ child ∈ tree.children id, child ∉ last.children id ∧ tree.arena.Reaches child i)
  lists : ∀ i was now, i ≠ id → tree.node? i = some was → last.node? i = some now →
    now.children = was.children
  elsewhere : ∀ i was now, i ≠ id → i ∉ tree.children id → tree.node? i = some was →
    last.node? i = some now → now = was
  child : ∀ i was now, i ∈ tree.children id → tree.node? i = some was → last.node? i = some now →
    now = { was with handle := now.handle, expandable := now.expandable } ∧
      (was.expanded = true → now.expandable = was.expandable)

namespace OneLevel
variable {listing : Listing} {children : List NodeId}

theorem refl (tree : TreeView) (id : NodeId) : tree.OneLevel tree id where
  gone_iff i node hi := by
    refine iff_of_false (fun hgone => ?_) fun ⟨_, hc, hdropped, _⟩ => hdropped hc
    exact Option.some_ne_none _ (hi.symm.trans hgone)
  lists i was now _ hwas hnow := by rw [Option.some.inj (hwas.symm.trans hnow)]
  elsewhere i was now _ _ hwas hnow := Option.some.inj (hnow.symm.trans hwas)
  child i was now _ hwas hnow := by
    obtain rfl := Option.some.inj (hwas.symm.trans hnow)
    exact ⟨rfl, fun _ => rfl⟩

theorem applied (hw : tree.WellFormed) (hlive : tree.arena.get? id = some n)
    (ha : Applied tree last id n listing children) : tree.OneLevel last id := by
  have hevolves := ha.evolves hlive
  have hlast := ha.wellFormed hw hlive
  have hchildren : last.children id = children := Arena.childrenOf_of_live ha.relisted.self
  have hself : last.arena.get? id ≠ none := by simp [ha.relisted.self]
  have hold {i : NodeId} {was now : Node} (hne : i ≠ id) (hwas : tree.node? i = some was)
      (hnow : last.node? i = some now) : now = { was with handle := now.handle } ∧
        (now.parent ≠ some id → now.handle = was.handle) := by
    rcases ha.relisted.old_cases hnow (Arena.id_bounds hwas).2 with
      ⟨rfl, _⟩ | ⟨_, before, hbefore, hsame, hhandle⟩
    · exact absurd rfl hne
    · obtain rfl := Option.some.inj (hwas.symm.trans hbefore)
      exact ⟨hsame, hhandle⟩
  constructor
  case gone_iff =>
    intro i node hi
    constructor
    · intro hgone
      have hne : i ≠ id := fun heq => hself (heq ▸ hgone)
      have hnot : i ∉ children := fun hc => by
        obtain ⟨_, hchild, _⟩ := ha.relisted.child_live hc
        exact Option.some_ne_none _ (hchild.symm.trans hgone)
      rcases ha.relisted.frame i hne hnot with hsame | ⟨_, hu⟩
      · exact absurd (hgone.symm.trans (hsame.trans hi)) (Option.some_ne_none _).symm
      · obtain ⟨child, hc, hbelow⟩ := hw.linked.lists_below hu hne
        refine ⟨child, hc, fun hkept => ?_, (hw.linked.reaches_iff_under fun _ _ => rfl).mpr hbelow⟩
        -- Below a child that stays nothing goes.
        rw [hchildren] at hkept
        have hne : i ≠ child := fun heq => hnot (heq ▸ hkept)
        have hsame := ha.relisted.below_kept hw.linked hkept hbelow hne
        exact Option.some_ne_none _ (hi.symm.trans (hsame.symm.trans hgone))
    · rintro ⟨child, hc, hdropped, hreach⟩
      refine Option.eq_none_iff_forall_ne_some.mpr fun now hnow => hdropped ?_
      -- With `i` the child would live, and then it would still be listed.
      have hu := (hw.linked.reaches_iff_under fun _ _ => rfl).mp hreach
      obtain ⟨later, hlater⟩ := (hevolves.under_after hlast.linked hu hnow).top_live
      obtain ⟨was, hwas, hup⟩ := hw.linked.owned hc
      obtain ⟨before, hbefore, _, hparent, _⟩ := hevolves.old hlater (Arena.id_bounds hwas).2
      obtain rfl := Option.some.inj (hwas.symm.trans hbefore)
      exact hlast.linked.listed hlater (hparent.trans hup)
  case lists =>
    intro i was now hne hwas hnow
    rw [(hold hne hwas hnow).1]
  case elsewhere =>
    intro i was now hne hnot hwas hnow
    obtain ⟨hsame, hhandle⟩ := hold hne hwas hnow
    rw [hsame, hhandle fun hup => hnot (hw.linked.listed hwas ?_)]
    rw [hsame] at hup
    exact hup
  case child =>
    intro i was now hc hwas hnow
    have hsame := (hold (Nat.ne_of_gt (hw.linked.lower hc)) hwas hnow).1
    rw [hsame]
    exact ⟨rfl, fun _ => rfl⟩

theorem of_bumped (hw : tree.WellFormed) (h : (tree.bumped id).OneLevel last id) :
    tree.OneLevel last id := by
  have hchildren : (tree.bumped id).children id = tree.children id :=
    Arena.childrenOf_modify (fun _ => by rfl) id
  have hslot {i : NodeId} (hne : i ≠ id) : (tree.bumped id).node? i = tree.node? i :=
    Arena.get?_modify_of_ne hne _
  have hreaches {top i : NodeId} :
      (tree.bumped id).arena.Reaches top i ↔ tree.arena.Reaches top i := by
    rw [(hw.bumped id).linked.reaches_iff_under fun _ _ => rfl,
      hw.linked.reaches_iff_under fun _ _ => rfl]
    exact ⟨under_of_bumped, fun hu => hu.congr
      fun i => (map_get?_bumped (fun _ _ => by rfl) tree id i).symm⟩
  constructor
  case gone_iff =>
    intro i node hi
    have hmap := @map_get?_bumped _ Node.parent (fun _ _ => rfl) tree id i
    obtain ⟨node', hi', _⟩ := Arena.live_of_map_get?_eq hmap hi
    simpa only [hchildren, hreaches] using h.gone_iff i node' hi'
  case lists =>
    intro i was now hne hwas
    exact h.lists i was now hne ((hslot hne).trans hwas)
  case elsewhere =>
    intro i was now hne hnot hwas
    exact h.elsewhere i was now hne (hchildren.symm ▸ hnot) ((hslot hne).trans hwas)
  case child =>
    intro i was now hc hwas
    have hne : i ≠ id := Nat.ne_of_gt (hw.linked.lower hc)
    exact h.child i was now (hchildren.symm ▸ hc) ((hslot hne).trans hwas)

theorem checked (hw : tree.WellFormed) (hlast : last.WellFormed) (h : tree.OneLevel last id)
    (fs : FileSystem σ) (lister : Lister) (always : Bool) (outcome : MergeOutcome) (s : σ) :
    tree.OneLevel (visitChecks fs lister id always outcome last s).tree id := by
  have hmap {β : Type} {view : Node → β}
      (hview : ∀ (node : Node) (found : Bool),
        view { node with expandable := found } = view node) :=
    map_get?_visitChecks hview fs lister id always outcome last s
  have hchildren := children_visitChecks fs lister id always outcome last s id
  have hold {i : NodeId} {now : Node}
      (hnow : (visitChecks fs lister id always outcome last s).tree.node? i = some now) :
      ∃ mid, last.node? i = some mid ∧ now = { mid with expandable := now.expandable } ∧
        ((i ∈ last.children id → mid.expanded = true) → now = mid) := by
    obtain ⟨mid, hmid, hview⟩ := Arena.live_of_map_get?_eq
      (@hmap _ (fun node => { node with expandable := false }) (fun _ _ => rfl) i).symm hnow
    refine ⟨mid, hmid, ?_, fun hexpanded => ?_⟩
    · exact (congrArg (fun node : Node => { node with expandable := now.expandable }) hview).symm
    · have hsame := get?_visitChecks_of_expanded
        (fun hc => (Arena.isExpanded_of_live hmid).trans (hexpanded hc)) fs lister always outcome s
      exact Option.some.inj (hnow.symm.trans (hsame.trans hmid))
  constructor
  case gone_iff =>
    intro i node hi
    have hdead : (visitChecks fs lister id always outcome last s).tree.node? i = none ↔
        last.node? i = none := by
      rw [← Option.map_eq_none_iff (f := Node.parent), node?, hmap fun _ _ => rfl,
        Option.map_eq_none_iff, node?]
    rw [hdead, hchildren]
    exact h.gone_iff i node hi
  case lists =>
    intro i was now hne hwas hnow
    obtain ⟨mid, hmid, hsame, _⟩ := hold hnow
    rw [hsame]
    exact h.lists i was mid hne hwas hmid
  case elsewhere =>
    intro i was now hne hnot hwas hnow
    obtain ⟨mid, hmid, _, hsame⟩ := hold hnow
    obtain rfl := h.elsewhere i was mid hne hnot hwas hmid
    refine hsame fun hc => absurd ?_ hnot
    obtain ⟨child, hchild, hup⟩ := hlast.linked.owned hc
    obtain rfl := Option.some.inj (hmid.symm.trans hchild)
    exact hw.linked.listed hwas hup
  case child =>
    intro i was now hc hwas hnow
    obtain ⟨mid, hmid, hview, hsame⟩ := hold hnow
    obtain ⟨heq, hflag⟩ := h.child i was mid hc hwas hmid
    refine ⟨by rw [hview, heq], fun hexpanded => ?_⟩
    rw [hsame fun _ => by rw [heq]; exact hexpanded]
    exact hflag hexpanded

end OneLevel

theorem oneLevel_refresh (hw : tree.WellFormed) (fs : FileSystem σ) (id : NodeId) (s : σ) :
    tree.OneLevel (refresh fs id false tree s).2.1 id := by
  rw [refresh, refreshWith_false_tree hw]
  cases hlive : tree.arena.get? id with
  | none =>
    rw [visit_of_dead hlive]
    exact .refl tree id
  | some node =>
    have hbumped := hw.bumped id
    refine .of_bumped hw ?_
    rcases visit_of_live hw hlive fs tree.lister false false s with
      ⟨e, _, heq⟩ | ⟨listing, outcome, listed, children, _, happlied, _, heq⟩
    · rw [heq]
      exact .refl _ id
    · rw [heq]
      have hself := get?_bumped hlive
      exact (OneLevel.applied hbumped hself happlied).checked hbumped
        (happlied.wellFormed hbumped hself) fs tree.lister false outcome _

theorem follow_tree {changed : String} (howner : tree.owner? changed = some id)
    (fs : FileSystem σ) (s : σ) :
    (follow fs changed tree s).2.1 = (refresh fs id false tree s).2.1 := by
  rw [follow_of_owner howner]

end TreeView

namespace Session
variable {σ : Type}

/-- A refresh stays below its node in every session, whether it succeeds or fails; one that is not
recursive stays one level below it, and so does what follows a change outside the tree. -/
theorem run_refreshes_stay_below (fs : FileSystem σ) (filter : NameFilter) (volumes : VolumeMap)
    (world : σ) (actions : List (Action σ)) :
    let x := (start filter volumes world).run fs actions
    (∀ id recursive, x.tree.LocalTo (x.tree.refresh fs id recursive x.world).2.1 id) ∧
    (∀ id, x.tree.OneLevel (x.tree.refresh fs id false x.world).2.1 id) ∧
    ∀ changed id, x.tree.owner? changed = some id →
      x.tree.LocalTo (x.tree.follow fs changed x.world).2.1 id ∧
      x.tree.OneLevel (x.tree.follow fs changed x.world).2.1 id := by
  intro x
  have hw : x.tree.WellFormed := wellFormed_run (wellFormed_start filter volumes world) fs actions
  have hlocal (id : NodeId) (recursive : Bool) :=
    TreeView.localTo_refresh hw fs id recursive x.world
  have hone (id : NodeId) := TreeView.oneLevel_refresh hw fs id x.world
  refine ⟨hlocal, hone, fun changed id howner => ?_⟩
  rw [TreeView.follow_tree howner]
  exact ⟨hlocal id false, hone id⟩

/-- A directory that appears between two open ones comes in alone. -/
theorem followed_change_stays_below :
    let x := (start .everything ⟨"/net", [], "", "", [], []⟩ twoBranches).run Scripted.fileSystem
      [.operate (.select "/a" 2), .operate (.expand 2), .operate (.expand 3),
        .drift { twoBranches with
          listings := [("/a", [.directory "/a/b", .directory "/a/bb", .directory "/a/c"])] }]
    let last := (x.tree.follow Scripted.fileSystem "/a" x.world).2.1
    x.tree.owner? "/a" = some 1 ∧ x.tree.children 1 = [2, 3] ∧ last.children 1 = [2, 6, 3] ∧
      x.tree.LocalTo last 1 ∧ x.tree.OneLevel last 1 :=
  ⟨by decide +kernel, by decide +kernel, by decide +kernel,
    (run_refreshes_stay_below Scripted.fileSystem .everything ⟨"/net", [], "", "", [], []⟩
      twoBranches
      [.operate (.select "/a" 2), .operate (.expand 2), .operate (.expand 3),
        .drift { twoBranches with
          listings := [("/a", [.directory "/a/b", .directory "/a/bb", .directory "/a/c"])] }]).2.2
      "/a" 1 (by decide +kernel)⟩

end Session

end LazyTree
