import LazyTree.Proofs.Convergence
import LazyTree.Proofs.OnVolume
import LazyTree.Proofs.Shortcuts
import LazyTree.Proofs.Way

/-!
How far a selection gets. However old the tree is, a child that covers the target stands for the
next directory on the way, and where there is none the listing of the level brings it, if the
directory is listed there at all. So a selection arrives as long as each directory on the way lists
the next one.
-/
namespace LazyTree
variable {σ : Type} {fs : FileSystem σ} {s t : σ} {volumes : VolumeMap}

namespace TreeView
variable {tree tree' : TreeView} {id current child : NodeId} {node : Node} {scope : Scope}
variable {P : String → Prop} {target dir name top : String} {names : List String}

theorem Applied.childless_of_new {listing : Listing} {children : List NodeId}
    (ha : Applied tree tree' id node listing children) (hnone : node.children = [])
    (hc : child ∈ tree'.children id) : tree'.children child = [] := by
  have hchildren : tree'.children id = children := Arena.childrenOf_of_live ha.relisted.self
  obtain ⟨now, hnow, hup⟩ := ha.relisted.linked.owned hc
  refine (Arena.childrenOf_of_live hnow).trans ?_
  cases ha.relisted.origin hnow with
  | self eq => exact absurd (eq ▸ ha.relisted.linked.lower hc) (Nat.lt_irrefl _)
  | added _ _ _ => rfl
  | kept _ _ _ fated => simpa [hnone] using Fate.mem_of_kept fated
  | untouched _ not_mem _ => exact absurd (hchildren ▸ hc) not_mem

/-- What a selection relies on: a filesystem that keeps still and lists right below the directory
asked for, and a target that does not lie at or below a search root. -/
structure Approach (fs : FileSystem σ) (s : σ) (volumes : VolumeMap) (target : String) : Prop where
  lists : fs.LaysBelow (fun _ => True) Path.IsName
  resolves : fs.ResolvesInPlace
  paths : fs.sameDirectory = FileSystem.samePath
  steady : fs.Steady s
  normalized : volumes.Normalized
  normal : Path.Normal target
  plain : ∀ root ∈ volumes.searchRoots, Path.covers root.path target = false

theorem Approach.ne_searchRoot (h : Approach fs s volumes target) (hdir : Path.Normal dir)
    (hway : Path.segments target = Path.segments dir ++ names) :
    ∀ root ∈ volumes.searchRoots, root.path ≠ dir := by
  rintro root hroot rfl
  have hcovers : Path.covers root.path target = true :=
    ((h.normalized.searchRoots root hroot).covers_iff h.normal).mpr (hway ▸ List.prefix_append ..)
  simp [h.plain root hroot] at hcovers

/-- A selection that has come down to the node of a directory, in a tree that is bound to `top`. -/
structure Underway (fs : FileSystem σ) (s : σ) (lister : Lister) (top dir : String)
    (current : NodeId) (tree : TreeView) (t : σ) : Prop where
  wellFormed : tree.WellFormed
  descending : tree.Descending ⟨lister.volumes, fun _ => True, Path.Normal⟩ Path.IsName
  shortcuts : tree.KnowsShortcuts lister.volumes
  same_lister : tree.lister = lister
  bound : tree.rootPath? = some top
  here : tree.pathOf? current = some dir
  normal : Path.Normal dir
  asked : fs.Asked s t

namespace Underway
variable {lister : Lister} {after : TreeView} {t' : σ}

theorem live (h : Underway fs s lister top dir current tree t) :
    ∃ node, tree.node? current = some node ∧ node.handle.path = dir := by
  obtain ⟨node, hlive, hpath⟩ := Option.map_eq_some_iff.mp h.here
  exact ⟨node, hlive, (h.descending.handles _ _ hlive).1.trans hpath⟩

theorem covers_iff (h : Underway fs s lister top dir current tree t)
    (ha : Approach fs s lister.volumes target)
    (hway : Path.segments target = Path.segments dir ++ name :: names)
    (hc : child ∈ tree.children current) :
    ∃ path, tree.pathOf? child = some path ∧
      (Path.covers path target = true ↔ path = Path.child dir name) := by
  obtain ⟨node, hlive, hup⟩ := h.wellFormed.linked.owned hc
  obtain ⟨above, hover, rfl⟩ := Option.map_eq_some_iff.mp h.here
  have hname := Path.isName_of_way hway
  refine ⟨node.path, congrArg (Option.map Node.path) hlive, ?_⟩
  -- A shortcut may lie anywhere but on the way; any other child has come down from `current`.
  by_cases hs : lister.volumes.Shortcut node.handle
  · obtain ⟨root, hroot, heq⟩ := hs
    have hpath : node.path = root.path :=
      (h.descending.handles _ _ hlive).1.symm.trans (congrArg Handle.path heq)
    have hnext : root.path ≠ Path.child above.path name :=
      ha.ne_searchRoot (h.normal.child hname) (Path.way_below hway) root hroot
    simp [hpath, ha.plain root hroot, hnext]
  · cases h.descending.descends hlive (.inl hs) with
    | top live up =>
      obtain rfl := Option.some.inj (live.symm.trans hlive)
      simp [hup] at up
    | child live up upper named path rest =>
      obtain rfl := Option.some.inj (live.symm.trans hlive)
      obtain rfl := Option.some.inj (up.symm.trans hup)
      obtain rfl := Option.some.inj (upper.symm.trans hover)
      rw [path, h.normal.covers_child_iff named ha.normal hway, Path.child_inj]

theorem down (h : Underway fs s lister top dir current tree t)
    (ha : Approach fs s lister.volumes target)
    (hway : Path.segments target = Path.segments dir ++ name :: names)
    (hchild : tree.wayTo? current target = some child) :
    Underway fs s lister top (Path.child dir name) child tree t := by
  obtain ⟨path, hpath, hcovers⟩ := h.covers_iff ha hway (mem_children_of_wayTo? hchild)
  obtain rfl := hcovers.mp (covers_of_wayTo? hchild hpath)
  have hname := Path.isName_of_way hway
  exact { h with here := hpath, normal := h.normal.child hname }

theorem wayTo?_eq_none_iff (h : Underway fs s lister top dir current tree t)
    (ha : Approach fs s lister.volumes target)
    (hway : Path.segments target = Path.segments dir ++ name :: names) :
    tree.wayTo? current target = none ↔ Path.child dir name ∉ tree.childPaths current := by
  unfold wayTo? childPaths
  rw [List.find?_eq_none, List.mem_filterMap, not_exists]
  refine forall_congr' fun child => ?_
  rw [not_and]
  refine imp_congr_right fun hc => ?_
  obtain ⟨path, hpath, hcovers⟩ := h.covers_iff ha hway hc
  simp [hpath, hcovers]

theorem of_listLevel (h : Underway fs s lister top dir current tree t)
    (ha : Approach fs s lister.volumes target) {root : NodeId}
    (hlist : listLevel fs current root tree t = (.ok (), after, t')) (hasked : fs.Asked s t') :
    Underway fs s lister top dir current after t' := by
  have htrail := listLevel_ok_trail h.wellFormed hlist
  have hw' := htrail.run.wellFormed h.wellFormed
  have hevolves := htrail.run.evolves h.wellFormed
  have hframe := htrail.run.frame h.wellFormed (refreshes_refreshMoves ..)
  have hlister : Scope.Lists ⟨lister.volumes, fun _ => True, Path.Normal⟩ tree.lister :=
    ⟨congrArg Lister.volumes h.same_lister, trivial⟩
  obtain ⟨⟨hdescending, hshortcuts⟩, _⟩ :=
    (keeps_shortcuts ha.lists ha.resolves).course htrail.course h.wellFormed
      ⟨h.descending, h.shortcuts⟩ hlister (apart_of_refreshes (refreshes_refreshMoves ..))
  obtain ⟨node, hlive, rfl⟩ := Option.map_eq_some_iff.mp h.here
  obtain ⟨now, hnow, hpath⟩ := path_of_listLevel h.wellFormed hlive hlist
  exact {
    wellFormed := hw'
    descending := hdescending
    shortcuts := hshortcuts
    same_lister := (congrArg Prod.snd hframe).trans h.same_lister
    bound := (rootPath?_eq h.wellFormed hw' hevolves (root_of_frame hframe)).trans h.bound
    here := (congrArg (Option.map Node.path) hnow).trans (congrArg some hpath)
    normal := h.normal
    asked := hasked }

theorem listed (h : Underway fs s lister top dir current tree t)
    (ha : Approach fs s lister.volumes target)
    (hplain : ∀ root ∈ lister.volumes.searchRoots, root.path ≠ dir) (hserves : fs.Serves s dir)
    (root : NodeId) :
    ∃ listed t', listLevel fs current root tree t = (.ok (), listed, t') ∧
      Underway fs s lister top dir current listed t' ∧
      (∀ path, (∀ root ∈ lister.volumes.searchRoots, root.path ≠ path) →
        (path ∈ listed.childPaths current ↔ fs.Offers s lister.filter lister.volumes dir path)) ∧
      (tree.children current = [] → ∀ child ∈ listed.children current,
        listed.children child = []) := by
  obtain ⟨node, hlive, rfl⟩ := h.live
  have hkind : node.handle.kind ≠ .searchRoot := fun hk => by
    obtain ⟨root, hroot, heq⟩ := h.shortcuts _ _ hlive hk
    exact hplain root hroot (congrArg Handle.path heq).symm
  obtain ⟨listing, entries, hfetch, hentries, harranged⟩ :=
    @fetchVisible_of_serves _ fs s t lister.volumes lister.filter ha.steady h.asked ha.resolves _
      hkind hserves
  obtain rfl := h.same_lister
  rcases listLevel_cases h.wellFormed hlive fs root t with
    ⟨e, hfailed, _⟩ | ⟨fetched, outcome, applied, children, hfetched, happlied, hlist⟩
  · cases hfetch.symm.trans hfailed
  · obtain rfl : listing = fetched := Except.ok.inj (hfetch.symm.trans hfetched)
    have hafter := h.of_listLevel ha hlist (asked_visitChecks (asked_fetchVisible h.asked ..) ..)
    refine ⟨_, _, hlist, hafter, fun path hpath => ?_, fun hnone child hc => ?_⟩
    · rw [← map_path_childHandles hafter.descending.handles, childHandles_visitChecks,
        happlied.childHandles, harranged, mem_paths_arrange hpath]
      constructor
      · exact fun hlisted => ⟨entries, hentries, hlisted⟩
      · rintro ⟨found, hfound, hlisted⟩
        obtain rfl : found = entries := Except.ok.inj (hfound.symm.trans hentries)
        exact hlisted
    · have hempty : node.children = [] := (Arena.childrenOf_of_live hlive).symm.trans hnone
      rw [children_visitChecks] at hc ⊢
      exact happlied.childless_of_new hempty hc

/-- One step down: a child leads to the next directory, or the level was listed and the directory
does not offer the next one. A node without children only leads to what is offered. -/
theorem step (h : Underway fs s lister top dir current tree t)
    (ha : Approach fs s lister.volumes target)
    (hway : Path.segments target = Path.segments dir ++ name :: names)
    (hserves : fs.Serves s dir) (root : NodeId) (budget : Nat) :
    (∃ child after t', Underway fs s lister top (Path.child dir name) child after t' ∧
      (tree.children current = [] → after.children child = [] ∧
        fs.Offers s lister.filter lister.volumes dir (Path.child dir name)) ∧
      descend fs target root (budget + 1) current tree t =
        descend fs target root budget child after t') ∨
    (¬ fs.Offers s lister.filter lister.volumes dir (Path.child dir name) ∧
      (descend fs target root (budget + 1) current tree t).1 =
        some (.error (.notFound target))) := by
  have hname := Path.isName_of_way hway
  obtain ⟨node, hlive, hhandle⟩ := h.live
  have hne : dir ≠ target := by
    rintro rfl
    simp at hway
  have hcompare : fs.sameDirectory t node.handle (.real target) = (false, t) := by
    rw [ha.paths, FileSystem.samePath, hhandle]
    exact congrArg (·, t) (decide_eq_false hne)
  rw [descend]
  simp only [hlive, hcompare]
  -- A child left from an earlier listing leads on as well as a new one.
  cases hstale : tree.wayTo? current target with
  | some child =>
    refine .inl ⟨child, tree, t, h.down ha hway hstale, fun hnone => ?_, rfl⟩
    unfold wayTo? at hstale
    simp [hnone] at hstale
  | none =>
    obtain ⟨after, t', hlist, hafter, hoffers, hnew⟩ :=
      h.listed ha (ha.ne_searchRoot h.normal hway) hserves root
    have hoffered := hoffers _ (ha.ne_searchRoot (h.normal.child hname) (Path.way_below hway))
    simp only [hlist]
    cases hchild : after.wayTo? current target with
    | some child =>
      have hmem : child ∈ after.children current := by
        unfold wayTo? at hchild
        exact List.mem_of_find?_eq_some hchild
      refine .inl ⟨child, after, t', hafter.down ha hway hchild, fun hnone => ?_, rfl⟩
      refine ⟨hnew hnone child hmem, hoffered.mp ?_⟩
      exact List.mem_filterMap.mpr ⟨child, hmem, (hafter.down ha hway hchild).here⟩
    | none =>
      refine .inr ⟨fun hoffer => ?_, rfl⟩
      exact (hafter.wayTo?_eq_none_iff ha hway).mp hchild (hoffered.mpr hoffer)

theorem arrives (h : Underway fs s lister top target current tree t)
    (ha : Approach fs s lister.volumes target) (hserves : fs.Serves s target) (root : NodeId)
    (budget : Nat) :
    ∃ last t', descend fs target root (budget + 1) current tree t =
        (some (.ok current), last, t') ∧
      last.pathOf? current = some target ∧ last.rootPath? = some top := by
  have hsettled {after : TreeView} {t' : σ}
      (hafter : Underway fs s lister top target current after t') :
      (after.settle current).pathOf? current = some target ∧
        (after.settle current).rootPath? = some top :=
    ⟨(pathOf?_settle ..).trans hafter.here, (rootPath?_settle ..).trans hafter.bound⟩
  obtain ⟨node, hlive, hhandle⟩ := h.live
  have hcompare : fs.sameDirectory t node.handle (.real target) = (true, t) := by
    rw [ha.paths, FileSystem.samePath, hhandle]
    exact congrArg (·, t) (decide_eq_true rfl)
  rw [descend]
  simp only [hlive, hcompare, arriveAt]
  cases hunresolved : node.handle.isUnresolved with
  | false => exact ⟨_, _, rfl, hsettled h⟩
  | true =>
    have hway : Path.segments target = Path.segments target ++ [] := (List.append_nil _).symm
    obtain ⟨after, t', hlist, hafter, _⟩ :=
      h.listed ha (ha.ne_searchRoot h.normal hway) hserves root
    simp only [hlist, if_true]
    exact ⟨_, _, rfl, hsettled hafter⟩

/-- The way down succeeds where each directory serves and offers the next one. -/
theorem descend_reaches (h : Underway fs s lister top dir current tree t)
    (ha : Approach fs s lister.volumes target)
    (hway : Path.segments target = Path.segments dir ++ names)
    (hserves : ∀ path ∈ Path.wayDown dir names, fs.Serves s path)
    (hchain : (Path.wayDown dir names).IsChain (fs.Offers s lister.filter lister.volumes))
    (root : NodeId) {budget : Nat} (hbudget : names.length < budget) :
    ∃ id last t', descend fs target root budget current tree t = (some (.ok id), last, t') ∧
      last.pathOf? id = some target ∧ last.rootPath? = some top := by
  induction names generalizing dir current tree t budget with
  | nil =>
    obtain rfl : dir = target := (h.normal.eq_iff ha.normal).mpr (by simp [hway])
    obtain ⟨budget, rfl⟩ := Nat.exists_eq_add_one.mpr (Nat.zero_lt_of_lt hbudget)
    exact ⟨current, h.arrives ha (hserves _ List.mem_cons_self) root budget⟩
  | cons name names ih =>
    obtain ⟨budget, rfl⟩ := Nat.exists_eq_add_one.mpr (Nat.zero_lt_of_lt hbudget)
    obtain ⟨rest, heq⟩ := Path.wayDown_eq_cons (Path.child dir name) names
    rw [Path.wayDown] at hserves
    obtain ⟨hdir, hrest⟩ := List.forall_mem_cons.mp hserves
    rw [Path.wayDown, heq, List.isChain_cons_cons, ← heq] at hchain
    rcases h.step ha hway hdir root budget with
      ⟨child, after, t', hafter, _, hdescend⟩ | ⟨hnot, _⟩
    · rw [hdescend]
      exact ih hafter (Path.way_below hway) hrest hchain.2 (Nat.lt_of_succ_lt_succ hbudget)
    · exact absurd hchain.1 hnot

/-- In a tree that is not listed yet, the way down misses a directory that is not offered. Only what
can be reached has to serve. -/
theorem descend_misses (h : Underway fs s lister top dir current tree t)
    (ha : Approach fs s lister.volumes target)
    (hway : Path.segments target = Path.segments dir ++ names)
    (hnew : tree.children current = [])
    (hserves : ∀ reached, reached <+: Path.wayDown dir names →
      reached.IsChain (fs.Offers s lister.filter lister.volumes) →
      ∀ path ∈ reached, fs.Serves s path)
    (hbroken : ¬ (Path.wayDown dir names).IsChain (fs.Offers s lister.filter lister.volumes))
    (root : NodeId) {budget : Nat} (hbudget : names.length < budget) :
    (descend fs target root budget current tree t).1 = some (.error (.notFound target)) := by
  induction names generalizing dir current tree t budget with
  | nil => exact absurd (.singleton dir) hbroken
  | cons name names ih =>
    obtain ⟨budget, rfl⟩ := Nat.exists_eq_add_one.mpr (Nat.zero_lt_of_lt hbudget)
    obtain ⟨rest, heq⟩ := Path.wayDown_eq_cons (Path.child dir name) names
    rw [Path.wayDown] at hserves hbroken
    have hdir : fs.Serves s dir :=
      hserves [dir] (by simp) (.singleton dir) dir List.mem_cons_self
    rcases h.step ha hway hdir root budget with
      ⟨child, after, t', hafter, hfresh, hdescend⟩ | ⟨_, hmissed⟩
    · obtain ⟨hnone, hoffer⟩ := hfresh hnew
      rw [hdescend]
      refine ih hafter (Path.way_below hway) hnone (fun reached hbegins hchain dir' hmem => ?_) ?_
        (Nat.lt_of_succ_lt_succ hbudget)
      · -- What is reached from the child is reached from here in one more step.
        refine hserves (dir :: reached) (List.cons_prefix_cons.mpr ⟨rfl, hbegins⟩) ?_ dir'
          (List.mem_cons_of_mem dir hmem)
        cases reached with
        | nil => exact .singleton dir
        | cons first reached =>
          rw [heq, List.cons_prefix_cons] at hbegins
          exact List.isChain_cons_cons.mpr ⟨hbegins.1 ▸ hoffer, hchain⟩
      · rw [heq, List.isChain_cons_cons, not_and] at hbroken
        exact heq ▸ hbroken hoffer
    · exact hmissed

end Underway

theorem underway_ensureRoot (hw : tree.WellFormed)
    (h : tree.Descending ⟨tree.volumes, fun _ => True, Path.Normal⟩ Path.IsName ∧
      tree.KnowsShortcuts tree.volumes)
    (ha : Approach fs s tree.volumes target) (htop : Path.Normal top) :
    Underway fs s tree.lister top top (tree.ensureRoot top).2
      { (tree.ensureRoot top).1 with selected := none } s := by
  have htrail := binding_trail fs tree top s
  obtain ⟨⟨hdescending, hshortcuts⟩, _⟩ := (keeps_shortcuts ha.lists ha.resolves).course
    htrail.course hw h ⟨rfl, trivial⟩ (apart_binding htop)
  have hpath := rootPath?_ensureRoot tree top
  rw [rootPath?, root_ensureRoot, Option.bind_some] at hpath
  exact {
    wellFormed := htrail.run.wellFormed hw
    descending := hdescending
    shortcuts := hshortcuts
    same_lister := lister_ensureRoot tree top
    bound := rootPath?_ensureRoot tree top
    here := hpath
    normal := htop
    asked := .nothing }

theorem children_ensureRoot (hroot : tree.root = none) (top : String) :
    (tree.ensureRoot top).1.children (tree.ensureRoot top).2 = [] := by
  have heq : tree.ensureRoot top = tree.bindTo top := by simp [ensureRoot, hroot]
  have hbound : (tree.bindTo top).1.root = some (tree.bindTo top).2 := rfl
  obtain ⟨node, hlive, _⟩ := (wellFormed_bindTo tree top).root_live hbound
  rw [heq]
  refine (Arena.childrenOf_of_live hlive).trans ?_
  rw [get?_bindTo hlive]
  rfl

theorem select_reaches (hw : tree.WellFormed) (hvolumes : tree.volumes = volumes)
    (h : tree.Descending ⟨volumes, fun _ => True, Path.Normal⟩ Path.IsName ∧
      tree.KnowsShortcuts volumes)
    (hon : tree.OnVolume) (ha : Approach fs s volumes target)
    (hserves : ∀ path ∈ volumes.wayTo target, fs.Serves s path)
    (hchain : (volumes.wayTo target).IsChain (fs.Offers s tree.filter volumes)) :
    ∃ id last t, select fs target tree s = (some (.ok id), last, t) ∧
      last.pathOf? id = some target ∧ last.rootPath? = some (volumes.rootOf target) := by
  subst hvolumes
  have hnormalize : Path.normalize target = target := ha.normal
  unfold select selectWithin
  simp only [hnormalize]
  rcases alreadySelected_cases ha.paths h.1.handles target s with heq | ⟨id, hid, hpath, heq⟩
  · rw [heq]
    have hunderway := underway_ensureRoot hw h ha (ha.normalized.rootOf ha.normal)
    refine hunderway.descend_reaches ha
      (ha.normalized.segments_rootOf_append ha.normal ha.plain) hserves hchain _ ?_
    unfold descentBudget
    rw [List.length_drop]
    omega
  · rw [heq]
    refine ⟨id, tree, s, rfl, hpath, hon target ?_⟩
    rw [selectedPath?, hid]
    exact hpath

theorem select_misses (hw : tree.WellFormed) (hvolumes : tree.volumes = volumes)
    (h : tree.Descending ⟨volumes, fun _ => True, Path.Normal⟩ Path.IsName ∧
      tree.KnowsShortcuts volumes)
    (hroot : tree.root = none) (ha : Approach fs s volumes target)
    (hserves : ∀ reached, reached <+: volumes.wayTo target →
      reached.IsChain (fs.Offers s tree.filter volumes) → ∀ path ∈ reached, fs.Serves s path)
    (hbroken : ¬ (volumes.wayTo target).IsChain (fs.Offers s tree.filter volumes)) :
    (select fs target tree s).1 = some (.error (.notFound target)) := by
  subst hvolumes
  have hnormalize : Path.normalize target = target := ha.normal
  unfold select selectWithin
  simp only [hnormalize]
  rcases alreadySelected_cases ha.paths h.1.handles target s with heq | ⟨id, hid, _⟩
  · rw [heq]
    have hunderway := underway_ensureRoot hw h ha (ha.normalized.rootOf ha.normal)
    refine hunderway.descend_misses ha
      (ha.normalized.segments_rootOf_append ha.normal ha.plain) (children_ensureRoot hroot _)
      hserves hbroken _ ?_
    unfold descentBudget
    rw [List.length_drop]
    omega
  · simp [(hw.nothing_without_root hroot).1] at hid

end TreeView

namespace Session

/-- A selection arrives, in a tree of whatever age, where each directory on the way lists the next
one; in a tree without root the target is not found where one of them does not. Directories have to
answer only as far as the way down goes. -/
theorem run_selection_reaches (fs : FileSystem σ)
    (hlists : fs.LaysBelow (fun _ => True) Path.IsName) (hresolves : fs.ResolvesInPlace)
    (hpaths : fs.sameDirectory = FileSystem.samePath) (settings : Settings) (filter : NameFilter)
    (world : σ) (actions : List (Action σ)) (target : String) (hnormal : Path.Normal target)
    (hplain : ∀ root ∈ settings.volumeMap.searchRoots, Path.covers root.path target = false) :
    let volumes := settings.volumeMap
    let x := (start filter volumes world).run fs actions
    let way := volumes.wayTo target
    let offers := fs.Offers x.world x.tree.filter volumes
    fs.Steady x.world →
    (∀ reached, reached <+: way → reached.IsChain offers →
      ∀ dir ∈ reached, fs.Serves x.world dir) →
    (way.IsChain offers → ∃ id last s, x.tree.select fs target x.world = (some (.ok id), last, s) ∧
      last.pathOf? id = some target ∧ last.rootPath? = some (volumes.rootOf target)) ∧
    (x.tree.root = none → ¬ way.IsChain offers →
      (x.tree.select fs target x.world).1 = some (.error (.notFound target))) := by
  intro volumes x way offers hsteady hserves
  let scope : Scope := ⟨volumes, fun _ => True, Path.Normal⟩
  have hstart : (start filter volumes world).Keeping fs scope
      (fun tree => tree.Descending scope Path.IsName ∧ tree.KnowsShortcuts volumes)
      (TreeView.Directs scope Path.IsName) := by
    refine keeping_start trivial ⟨TreeView.descending_unbound .., ?_⟩ world
    intro id node hlive
    simp [TreeView.unbound] at hlive
  have hactions : ∀ action ∈ actions, action.Within scope := fun action _ => settings.within action
  have hkeeping := hstart.run (TreeView.keeps_shortcuts hlists hresolves) hactions
  have hvolumes : x.tree.volumes = volumes := hkeeping.within.lister.1
  have ha : TreeView.Approach fs x.world volumes target :=
    ⟨hlists, hresolves, hpaths, hsteady, settings.normalized, hnormal, hplain⟩
  refine ⟨fun hchain => ?_, fun hroot hbroken => ?_⟩
  · have hon : x.tree.OnVolume := onVolume_run hpaths hresolves.gives
      (wellFormed_start filter volumes world) (fits_start fs _ filter volumes world)
      (TreeView.onVolume_of_none rfl) actions
    exact TreeView.select_reaches hkeeping.wellFormed hvolumes hkeeping.tree hon ha
      (hserves way (List.prefix_refl way) hchain) hchain
  · exact TreeView.select_misses hkeeping.wellFormed hvolumes hkeeping.tree hroot ha hserves
      hbroken

/-- A tree that stands elsewhere is led to the target; in a new tree, what is not listed is not
found. -/
theorem endless_selection_reaches :
    let volumes := Settings.unset.volumeMap
    let x := (start .everything volumes ()).run .endless
      [.operate (.select "/A/b" 2), .operate (.refresh 1 true)]
    let new := TreeView.unbound .everything volumes
    (∃ id last s, x.tree.select .endless "/A/A/b" () = (some (.ok id), last, s) ∧
      last.pathOf? id = some "/A/A/b" ∧ last.rootPath? = some "/A") ∧
    (new.select .endless "/A/c" ()).1 = some (.error (.notFound "/A/c")) := by
  intro volumes x new
  have hlists := (FileSystem.endless_listsBelow fun _ => True).lays
  have hreaches := (run_selection_reaches .endless hlists endless_resolvesInPlace rfl
    Settings.unset .everything () [.operate (.select "/A/b" 2), .operate (.refresh 1 true)]
    "/A/A/b" (show Path.normalize _ = _ by decide +kernel) (by decide +kernel) endless_steady
    fun _ _ _ dir _ => FileSystem.endless_serves dir).1
  have hmisses := (run_selection_reaches .endless hlists endless_resolvesInPlace rfl
    Settings.unset .everything () [] "/A/c" (show Path.normalize _ = _ by decide +kernel)
    (by decide +kernel) endless_steady fun _ _ _ dir _ => FileSystem.endless_serves dir).2
  have hfilter : x.tree.filter = .everything := by decide +kernel
  have hway : volumes.wayTo "/A/A/b" = ["/A", "/A/A", "/A/A/b"] := by decide +kernel
  have hmissing : volumes.wayTo "/A/c" = ["/A", "/A/c"] := by decide +kernel
  refine ⟨hreaches ?_, hmisses rfl ?_⟩
  · change (volumes.wayTo "/A/A/b").IsChain (FileSystem.endless.Offers () x.tree.filter volumes)
    rw [hway, hfilter, List.isChain_cons_cons, List.isChain_cons_cons,
      FileSystem.endless_offers_iff (by decide +kernel),
      FileSystem.endless_offers_iff (by decide +kernel)]
    exact ⟨.inr (by decide +kernel), .inl (by decide +kernel), .singleton _⟩
  · change ¬ (volumes.wayTo "/A/c").IsChain (FileSystem.endless.Offers () .everything volumes)
    rw [hmissing, List.isChain_cons_cons, FileSystem.endless_offers_iff (by decide +kernel)]
    exact fun h => absurd h.1 (by decide +kernel)

end Session

end LazyTree
