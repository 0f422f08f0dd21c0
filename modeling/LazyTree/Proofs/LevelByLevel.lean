import LazyTree.Proofs.Convergence
import LazyTree.Proofs.Fetches
import LazyTree.Proofs.Lookup
import LazyTree.Proofs.Passage
import LazyTree.Proofs.Shortcuts

/-!
How many levels a selection lists. A step down comes to the next name of the target or, from the
remote root, to a shortcut, and below a shortcut there is nothing. So no way down passes more nodes
than the target has names, whatever is listed meanwhile, and every selection ends.
-/
namespace LazyTree
variable {σ : Type} {fs : FileSystem σ} {s s' : σ} {volumes : VolumeMap}

theorem FileSystem.LaysBelow.recorded {Filter : NameFilter → Prop} {P : String → Prop}
    (h : fs.LaysBelow Filter P) : fs.recorded.LaysBelow Filter P where
  listed := h.listed
  in_place := h.in_place

theorem FileSystem.LaysBelow.imp {Filter : NameFilter → Prop} {P Q : String → Prop}
    (h : fs.LaysBelow Filter P) (hP : ∀ name, P name → Q name) : fs.LaysBelow Filter Q where
  listed := by
    intro s dir entries filter henumerate hfilter entry hmem hshows
    obtain ⟨name, hname, hpath⟩ := h.listed henumerate hfilter entry hmem hshows
    exact ⟨name, hP name hname, hpath⟩
  in_place := h.in_place

/-- Handles of one path denote the same directory. -/
def FileSystem.Reflexive (fs : FileSystem σ) : Prop :=
  ∀ s a b, a.path = b.path → (fs.sameDirectory s a b).1 = true

namespace VolumeMap.Shortcut
variable {handle : Handle} {target : String}

theorem isUnresolved (h : volumes.Shortcut handle) : handle.isUnresolved = false := by
  simp [Handle.isUnresolved, h.kind]

theorem path_of_covers (h : volumes.Shortcut handle) (hvolumes : volumes.Normalized)
    (htarget : Path.Normal target) (htop : Path.segments target = [])
    (hcovers : Path.covers handle.path target = true) : handle.path = target := by
  obtain ⟨root, hroot, rfl⟩ := h
  have hnormal := hvolumes.searchRoots root hroot
  have hprefix := (hnormal.covers_iff htarget).mp hcovers
  rw [htop] at hprefix
  exact (hnormal.eq_iff htarget).mpr ((List.prefix_nil.mp hprefix).trans htop.symm)

end VolumeMap.Shortcut

namespace TreeView
variable {tree mid last : TreeView} {root above below current : NodeId} {node : Node}
variable {target : String} {track rest : List NodeId} {moves : List Move} {budget larger : Nat}

theorem descend_of_le (hle : budget ≤ larger)
    (h : (descend fs target root budget current tree s).1 ≠ none) :
    descend fs target root larger current tree s =
      descend fs target root budget current tree s := by
  induction budget generalizing larger current tree s with
  | zero => exact absurd rfl h
  | succ budget ih =>
    obtain ⟨larger, rfl⟩ : ∃ rest, larger = rest + 1 := ⟨larger - 1, by omega⟩
    have hle := Nat.le_of_succ_le_succ hle
    revert h
    rw [descend, descend]
    cases tree.node? current with
    | none => exact fun _ => rfl
    | some node =>
      dsimp only
      rcases fs.sameDirectory s node.handle (.real target) with ⟨_ | _, world⟩
      · cases tree.wayTo? current target with
        | some child => exact ih hle
        | none =>
          dsimp only
          rcases listLevel fs current root tree world with ⟨_ | _, listed, later⟩
          · exact fun _ => rfl
          · dsimp only
            cases listed.wayTo? current target with
            | some child => exact ih hle
            | none => exact fun _ => rfl
      · exact fun _ => rfl

theorem selectWithin_of_le {path : String} (hle : budget ≤ larger)
    (h : (selectWithin fs budget path tree s).1 ≠ none) :
    selectWithin fs larger path tree s = selectWithin fs budget path tree s := by
  revert h
  unfold selectWithin
  dsimp only
  rcases alreadySelected fs (Path.normalize path) tree s with ⟨_ | id, world⟩
  · exact descend_of_le hle
  · exact fun _ => rfl

/-- A tree whose children lie below their directories name by name, but for the shortcuts at the
remote root. -/
structure Laddered (volumes : VolumeMap) (tree : TreeView) : Prop where
  wellFormed : tree.WellFormed
  lister : Scope.Lists ⟨volumes, fun _ => True, Path.Normal⟩ tree.lister
  descending : tree.Descending ⟨volumes, fun _ => True, Path.Normal⟩ Path.IsPiece
  hanging : tree.HangsShortcuts volumes

/-- Such a tree when it is bound for a target. -/
structure BoundFor (volumes : VolumeMap) (target : String) (root : NodeId) (tree : TreeView) : Prop
    extends tree.Laddered volumes where
  normalized : volumes.Normalized
  normal : Path.Normal target
  root_eq : tree.root = some root
  bound : tree.rootPath? = some (volumes.rootOf target)

namespace Laddered

theorem course (h : tree.Laddered volumes) (hlists : fs.LaysBelow (fun _ => True) Path.IsPiece)
    (hresolves : fs.ResolvesInPlace) (hcourse : Course fs tree moves last)
    (hapart : Apart fs ⟨volumes, fun _ => True, Path.Normal⟩ moves) : last.Laddered volumes := by
  obtain ⟨⟨hdescending, hhanging⟩, _⟩ := (keeps_hanging hlists hresolves).course hcourse
    h.wellFormed ⟨h.descending, h.hanging⟩ h.lister hapart
  exact ⟨hcourse.run.wellFormed h.wellFormed, (hcourse.within h.wellFormed h.lister hapart).2,
    hdescending, hhanging⟩

theorem way (h : tree.Laddered volumes) (htarget : Path.Normal target)
    (hlive : tree.node? above = some node) (hnormal : Path.Normal node.path)
    (hway : tree.wayTo? above target = some below) :
    ∃ next, tree.node? below = some next ∧ Path.covers next.path target = true ∧
      (volumes.Shortcut next.handle ∧ next.children = [] ∧ node.path = volumes.remoteRoot ∨
        Path.Normal next.path ∧
          (Path.segments next.path).length = (Path.segments node.path).length + 1) := by
  obtain ⟨next, hnext, hup⟩ := h.wellFormed.linked.owned (mem_children_of_wayTo? hway)
  have hcovers := covers_of_wayTo? hway (congrArg (Option.map Node.path) hnext)
  refine ⟨next, hnext, hcovers, ?_⟩
  by_cases hplain : ¬ volumes.Shortcut next.handle ∨ next.children ≠ []
  · cases h.descending.descends hnext hplain with
    | top live up =>
      obtain rfl := Option.some.inj (live.symm.trans hnext)
      simp [hup] at up
    | child live up upper named path rest =>
      obtain rfl := Option.some.inj (live.symm.trans hnext)
      obtain rfl := Option.some.inj (up.symm.trans hup)
      obtain rfl := Option.some.inj (upper.symm.trans hlive)
      rw [path] at hcovers ⊢
      have hname := htarget.isName_of_covers named hcovers
      refine .inr ⟨hnormal.child hname, ?_⟩
      rw [Path.segments_child _ hname, List.length_append, List.length_singleton]
  · obtain ⟨hs, hchildless⟩ := not_or.mp hplain
    obtain ⟨up, hover, htop⟩ := h.hanging below next hnext (not_not.mp hs)
    obtain rfl := Option.some.inj (hover.symm.trans hup)
    rw [pathOf?, hlive] at htop
    exact .inl ⟨not_not.mp hs, not_not.mp hchildless, Option.some.inj htop⟩

theorem length_le (h : tree.Laddered volumes) (htarget : Path.Normal target)
    (hlive : tree.node? above = some node) (hnormal : Path.Normal node.path)
    (hchain : (above :: rest).IsChain fun above below => tree.wayTo? above target = some below) :
    rest.length ≤ (Path.segments target).length - (Path.segments node.path).length ∨
      ∃ way shortcut next, rest = way ++ [shortcut] ∧ tree.node? shortcut = some next ∧
        volumes.Shortcut next.handle ∧ Path.covers next.path target = true ∧
        (Path.segments volumes.remoteRoot).length =
          (Path.segments node.path).length + way.length := by
  induction rest generalizing above node with
  | nil => exact .inl (Nat.zero_le _)
  | cons below rest ih =>
    obtain ⟨hway, hrest⟩ := List.isChain_cons_cons.mp hchain
    obtain ⟨next, hnext, hcovers, hcases⟩ := h.way htarget hlive hnormal hway
    rcases hcases with ⟨hs, hchildless, htop⟩ | ⟨hnormal', hlength⟩
    -- Nothing hangs below a shortcut, so the way ends there.
    · cases rest with
      | nil => exact .inr ⟨[], below, next, rfl, hnext, hs, hcovers, by rw [htop]; rfl⟩
      | cons under rest =>
        have hmem := mem_children_of_wayTo? (List.isChain_cons_cons.mp hrest).1
        rw [children, Arena.childrenOf_of_live hnext, hchildless] at hmem
        exact absurd hmem List.not_mem_nil
    · have hle := ((hnormal'.covers_iff htarget).mp hcovers).length_le
      rcases ih hnext hnormal' hrest with hshort | ⟨way, shortcut, n, rfl, hn, hs, hcov, hdepth⟩
      · left
        rw [List.length_cons]
        omega
      · refine .inr ⟨below :: way, shortcut, n, rfl, hn, hs, hcov, ?_⟩
        rw [List.length_cons]
        omega

theorem length_le_of_root (h : tree.Laddered volumes) (hvolumes : volumes.Normalized)
    (htarget : Path.Normal target) (hlive : tree.node? root = some node)
    (hroot : node.path = volumes.rootOf target)
    (hchain : (root :: rest).IsChain fun above below => tree.wayTo? above target = some below) :
    rest.length ≤ (Path.segments target).length ∨
      ∃ shortcut next, rest = [shortcut] ∧ tree.node? shortcut = some next ∧
        volumes.Shortcut next.handle ∧ Path.covers next.handle.path target = true := by
  have hnormal : Path.Normal node.path := hroot ▸ hvolumes.rootOf htarget
  rcases h.length_le htarget hlive hnormal hchain with
    hshort | ⟨way, shortcut, next, rfl, hnext, hs, hcovers, hdepth⟩
  · exact .inl (hshort.trans (Nat.sub_le ..))
  -- A target at or below a shortcut is remote, so the way starts at the remote root.
  · rw [← (h.descending.handles _ _ hnext).1] at hcovers
    have hremote : volumes.isRemote target = true := by
      obtain ⟨top, htop, heq⟩ := hs
      rw [heq] at hcovers
      rw [VolumeMap.isRemote, Bool.or_eq_true, List.any_eq_true]
      exact .inr ⟨top, htop, hcovers⟩
    have hway : way = [] := by
      rw [hroot, VolumeMap.rootOf, if_pos hremote] at hdepth
      exact List.length_eq_zero_iff.mp (by omega)
    subst hway
    exact .inr ⟨shortcut, next, rfl, hnext, hs, hcovers⟩

end Laddered

/-- No way down from the root passes more nodes than the target has names, but a target without
names may lie at a shortcut. -/
theorem Passage.length_le (h : Passage fs target root root tree s track moves current mid s')
    (hbound : tree.BoundFor volumes target root)
    (hlists : fs.LaysBelow (fun _ => True) Path.IsPiece) (hresolves : fs.ResolvesInPlace) :
    track.length ≤ (Path.segments target).length ∨
      track = [root] ∧ ∃ next, mid.node? current = some next ∧ volumes.Shortcut next.handle ∧
        Path.covers next.handle.path target = true := by
  have hw := hbound.wellFormed
  have hrun := (h.trail hw).run
  have hmid := hbound.course hlists hresolves (h.trail hw).course
    (apart_of_refreshes (h.made hw).1)
  have hsame := root_of_frame (hrun.frame hw (h.made hw).1)
  have hpath := (rootPath?_eq hw hmid.wellFormed (hrun.evolves hw) hsame).trans hbound.bound
  obtain ⟨top, hlive, _⟩ := hmid.wellFormed.root_live (hsame.trans hbound.root_eq)
  have htop : top.path = volumes.rootOf target := by
    rw [rootPath?, hsame, hbound.root_eq, Option.bind_some, pathOf?, node?, hlive] at hpath
    exact Option.some.inj hpath
  have hchain := h.isChain hw hmid.wellFormed (.refl _) fun _ _ _ _ _ => rfl
  obtain ⟨rest, hrest⟩ := List.head?_eq_some_iff.mp h.head?
  rw [hrest] at hchain
  rcases hmid.length_le_of_root hbound.normalized hbound.normal hlive htop hchain with
    hshort | ⟨shortcut, next, rfl, hnext, hs, hcovers⟩
  · have hlength := congrArg List.length hrest
    rw [List.length_append, List.length_singleton, List.length_cons] at hlength
    exact .inl (by omega)
  · have hsplit : track ++ [current] = [root] ++ [shortcut] := hrest
    obtain ⟨rfl, hlast⟩ := List.append_inj' hsplit rfl
    obtain rfl : current = shortcut := List.singleton_inj.mp hlast
    exact .inr ⟨rfl, next, hnext, hs, hcovers⟩

theorem Halts.issued_of_resolved {answer : Except Failure NodeId}
    (h : Halts fs target root current tree s moves answer last s')
    (hlive : tree.node? current = some node) (hresolved : node.handle.isUnresolved = false)
    (hsame : (fs.sameDirectory s node.handle (.real target)).1 = true) : issuedBy moves = [] := by
  have hat {n : Node} (hn : tree.node? current = some n) : n = node :=
    Option.some.inj (hn.symm.trans hlive)
  cases h with
  | settled _ _ _ => rfl
  | resolved live _ _ unresolved =>
    rw [hat live, hresolved] at unresolved
    cases unresolved
  | missed live other _ _ =>
    rw [hat live] at other
    rw [other] at hsame
    cases hsame
  | failed live compared needed _ =>
    rw [hat live] at compared needed
    rw [compared] at hsame
    rw [needed hsame] at hresolved
    cases hresolved

namespace Descent
variable {result : Option (Except Failure NodeId) × TreeView × σ}

theorem answers (h : Descent fs target root budget root tree s track moves result)
    (hbound : tree.BoundFor volumes target root)
    (hlists : fs.LaysBelow (fun _ => True) Path.IsPiece) (hresolves : fs.ResolvesInPlace)
    (hbudget : (Path.segments target).length + 2 ≤ budget) : result.1 ≠ none := by
  cases h with
  | spent passage =>
    rcases passage.length_le hbound hlists hresolves with hshort | ⟨rfl, _⟩
    · omega
    · rw [List.length_singleton] at hbudget
      omega
  | halted _ _ _ => exact Option.some_ne_none _

/-- A descent from the root refreshes one node for each name of its target at most, and one more. A
target without names has to be known where the tree comes to it. -/
theorem length_issued (h : Descent fs target root budget root tree s track moves result)
    (hbound : tree.BoundFor volumes target root)
    (hlists : fs.LaysBelow (fun _ => True) Path.IsPiece) (hresolves : fs.ResolvesInPlace)
    (hself : target = "/" → fs.Reflexive) :
    (issuedBy moves).length ≤ (Path.segments target).length + 1 := by
  have hw := hbound.wellFormed
  cases h with
  | spent passage =>
    have hissued := (passage.made hw).2.1.length_le
    rcases passage.length_le hbound hlists hresolves with hshort | ⟨rfl, _⟩
    · omega
    · rw [List.length_singleton] at hissued
      omega
  | halted passage halts _ =>
    have hissued := (passage.made hw).2.1.length_le
    have hlast := (halts.issued ((passage.trail hw).run.wellFormed hw)).length_le
    rw [List.length_singleton] at hlast
    rw [issuedBy_append, List.length_append]
    rcases passage.length_le hbound hlists hresolves with
      hshort | ⟨rfl, next, hnext, hs, hcovers⟩
    · omega
    · rw [List.length_singleton] at hissued
      cases hnames : Path.segments target with
      | cons name names =>
        rw [List.length_cons]
        omega
      | nil =>
        -- The descent has come from the root to a shortcut at the top, which is the target.
        have htop : target = "/" := by rw [← hbound.normal.render_segments, hnames]; rfl
        have hat := hs.path_of_covers hbound.normalized hbound.normal hnames hcovers
        rw [halts.issued_of_resolved hnext hs.isUnresolved (hself htop _ _ _ hat)]
        exact hissued

end Descent

theorem issuedBy_binding (tree : TreeView) (top : String) (moves : List Move) :
    issuedBy (ensureRootMoves tree top ++ .deselect :: moves) = issuedBy moves := by
  have hnone : issuedBy (ensureRootMoves tree top) = [] := by
    unfold ensureRootMoves
    split <;> rfl
  rw [issuedBy_append, hnone]
  rfl

theorem issued_by_selection (hw : tree.WellFormed) (fs : FileSystem σ) (budget : Nat)
    (path : String) (s : σ) :
    let root := (tree.ensureRoot (tree.volumes.rootOf (Path.normalize path))).2
    let after := (selectWithin fs budget path tree s).2.1
    let refreshed := issuedBy (selectMoves fs budget path tree s)
    refreshed.Nodup ∧ ∃ below, refreshed.Sublist (root :: below) ∧
      (root :: below).IsChain fun above id => id ∈ after.children above := by
  intro root after refreshed
  rcases selectWithin_cases hw fs budget path s with
    ⟨_, _, _, _, _, hmoves⟩ | ⟨_, made, _, hbound, hdescent, hmoves⟩
  · have hnone : refreshed = [] := congrArg issuedBy hmoves
    rw [hnone]
    exact ⟨.nil, [], List.nil_sublist _, .singleton root⟩
  · have hafter : after.WellFormed := (hdescent.trail hbound).run.wellFormed hbound
    have hissued : refreshed = issuedBy made :=
      (congrArg issuedBy hmoves).trans (issuedBy_binding ..)
    have hsub := hissued ▸ hdescent.issued hbound
    have hchain := hdescent.isChain hbound (Nat.le_refl _)
    refine ⟨((pairwise_of_ways hafter hchain).imp Nat.ne_of_lt).sublist hsub, ?_⟩
    rcases hdescent.track_eq with hnil | ⟨below, heq⟩
    · rw [hnil] at hsub
      exact ⟨[], hsub.trans (List.nil_sublist _), .singleton root⟩
    · rw [heq] at hsub hchain
      exact ⟨below, hsub, hchain.imp fun _ _ hway => mem_children_of_wayTo? hway⟩

theorem Laddered.boundFor (h : tree.Laddered volumes)
    (hlists : fs.LaysBelow (fun _ => True) Path.IsPiece) (hresolves : fs.ResolvesInPlace)
    (hvolumes : volumes.Normalized) (htarget : Path.Normal target) (s : σ) :
    let (bound, root) := tree.ensureRoot (volumes.rootOf target)
    { bound with selected := none }.BoundFor volumes target root where
  toLaddered := h.course hlists hresolves (binding_trail fs tree _ s).course
    (apart_binding (hvolumes.rootOf htarget))
  normalized := hvolumes
  normal := htarget
  root_eq := root_ensureRoot tree _
  bound := rootPath?_ensureRoot tree _

theorem Laddered.selection_ends (h : tree.Laddered volumes)
    (hlists : fs.LaysBelow (fun _ => True) Path.IsPiece) (hresolves : fs.ResolvesInPlace)
    (hvolumes : volumes.Normalized) (budget : Nat) (path : String) (s : σ) :
    let target := Path.normalize path
    ((Path.segments target).length + 2 ≤ budget →
        (selectWithin fs budget path tree s).1 ≠ none) ∧
      ((target = "/" → fs.Reflexive) →
        (issuedBy (selectMoves fs budget path tree s)).length ≤
          (Path.segments target).length + 1) := by
  intro target
  rcases selectWithin_cases h.wellFormed fs budget path s with
    ⟨_, _, hanswer, _, _, hmoves⟩ | ⟨world, made, _, _, hdescent, hmoves⟩
  · rw [hanswer, hmoves]
    exact ⟨fun _ => by simp, fun _ => Nat.zero_le _⟩
  · rw [hmoves, issuedBy_binding]
    have hlister : tree.volumes = volumes := h.lister.1
    rw [hlister] at hdescent
    have hbound := h.boundFor hlists hresolves hvolumes (Path.normal_normalize path) world
    exact ⟨hdescent.answers hbound hlists hresolves,
      hdescent.length_issued hbound hlists hresolves⟩

end TreeView

namespace Session

theorem laddered_run (hlists : fs.LaysBelow (fun _ => True) Path.IsPiece)
    (hresolves : fs.ResolvesInPlace) (settings : Settings) (filter : NameFilter) (world : σ)
    (actions : List (Action σ)) :
    ((start filter settings.volumeMap world).run fs actions).tree.Laddered settings.volumeMap := by
  let scope : Scope := ⟨settings.volumeMap, fun _ => True, Path.Normal⟩
  have hempty : (TreeView.unbound filter settings.volumeMap).HangsShortcuts settings.volumeMap :=
    fun _ _ hlive => by simp [TreeView.unbound] at hlive
  have hstart : (start filter settings.volumeMap world).Keeping fs scope
      (fun tree => tree.Descending scope Path.IsPiece ∧ tree.HangsShortcuts settings.volumeMap)
      (TreeView.Directs scope Path.IsPiece) :=
    keeping_start trivial ⟨TreeView.descending_unbound .., hempty⟩ world
  have h := hstart.run (TreeView.keeps_hanging hlists hresolves)
    fun action (_ : action ∈ actions) => settings.within action
  exact ⟨h.wellFormed, h.within.lister, h.tree.1, h.tree.2⟩

/-- In every session a selection ends, with the same result for every budget that suffices. The
nodes that it refreshes lie on one way down from the root, each of them is refreshed once, and they
are no more than the target has names and one more. Neither are directories listed nor placeholders
resolved more often. Only for the top, which has no names, the filesystem has to know that it is the
same as itself: a shortcut may lie there too. -/
theorem run_selection_levels (fs : FileSystem σ)
    (hlists : fs.LaysBelow (fun _ => True) Path.IsPiece) (hresolves : fs.ResolvesInPlace)
    (settings : Settings) (filter : NameFilter) (world : σ × List Request)
    (actions : List (Action (σ × List Request))) (path : String) :
    let volumes := settings.volumeMap
    let x := (start filter volumes world).run fs.recorded actions
    let target := Path.normalize path
    let names := (Path.segments target).length
    let root := (x.tree.ensureRoot (volumes.rootOf target)).2
    (∃ answer last s, x.tree.select fs.recorded path x.world = (some answer, last, s) ∧
      ∀ budget, names + 2 ≤ budget →
        x.tree.selectWithin fs.recorded budget path x.world = (some answer, last, s)) ∧
    ∀ budget,
      let result := x.tree.selectWithin fs.recorded budget path x.world
      let moves := x.tree.selectMoves fs.recorded budget path x.world
      let refreshed := issuedBy moves
      TreeView.Trail fs.recorded x.tree x.world moves result.2.1 result.2.2 ∧ refreshed.Nodup ∧
      (∃ below, refreshed.Sublist (root :: below) ∧
        (root :: below).IsChain fun above id => id ∈ result.2.1.children above) ∧
      (enumerated result.2.2.2).length ≤ (enumerated x.world.2).length + refreshed.length ∧
      (resolved result.2.2.2).length ≤ (resolved x.world.2).length + refreshed.length ∧
      ((target = "/" → fs.Reflexive) → refreshed.length ≤ names + 1) := by
  intro volumes x target names root
  have hladdered : x.tree.Laddered volumes :=
    laddered_run hlists.recorded hresolves settings filter world actions
  have hvolumes : x.tree.volumes = volumes := hladdered.lister.1
  have hends := hladdered.selection_ends hlists.recorded hresolves settings.normalized
  constructor
  · have hanswer := (hends (names + 2) path x.world).1 (Nat.le_refl _)
    obtain ⟨answer, hsome⟩ := Option.ne_none_iff_exists'.mp hanswer
    have hsame {budget : Nat} (hle : names + 2 ≤ budget) := TreeView.selectWithin_of_le hle hanswer
    refine ⟨answer, _, _, ?_, fun budget hle => (hsame hle).trans (Prod.ext hsome rfl)⟩
    have hnames : names = (Path.segments path).length :=
      congrArg List.length (Path.segments_normalize path)
    refine (hsame ?_).trans (Prod.ext hsome rfl)
    unfold TreeView.descentBudget
    omega
  · intro budget result moves refreshed
    have htrail :=
      TreeView.selectWithin_trail hladdered.wellFormed fs.recorded budget path x.world
    obtain ⟨hnodup, hway⟩ :=
      TreeView.issued_by_selection hladdered.wellFormed fs.recorded budget path x.world
    rw [hvolumes] at hway
    exact ⟨htrail, hnodup, hway, htrail.length_enumerated hladdered.wellFormed,
      htrail.length_resolved hladdered.wellFormed,
      fun hsame => (hends budget path x.world).2 fun htop s => hsame htop s.1⟩

/-- The first two of four levels are there already. -/
theorem endless_selection_levels :
    let fs := FileSystem.endless.recorded
    let x := (start .everything Settings.unset.volumeMap ((), [])).run fs
      [.operate (.select "/A/A" 3), .operate (.refresh 1 true)]
    let result := x.tree.selectWithin fs 6 "/A//A/b/b" x.world
    let refreshed := issuedBy (x.tree.selectMoves fs 6 "/A//A/b/b" x.world)
    refreshed = [2, 5] ∧ result.1 = some (.ok 7) ∧ refreshed.length ≤ 5 ∧
      (enumerated result.2.2.2).length ≤ (enumerated x.world.2).length + refreshed.length := by
  have hlists : FileSystem.endless.LaysBelow (fun _ => True) Path.IsPiece :=
    (FileSystem.endless_listsBelow fun _ => True).lays.imp fun _ hname => hname.isPiece
  obtain ⟨_, _, _, henumerated, _, hnames⟩ :=
    (run_selection_levels .endless hlists endless_resolvesInPlace Settings.unset .everything
      ((), []) [.operate (.select "/A/A" 3), .operate (.refresh 1 true)] "/A//A/b/b").2 6
  have hfour : (Path.segments (Path.normalize "/A//A/b/b")).length = 4 := by decide +kernel
  have htop : Path.normalize "/A//A/b/b" ≠ "/" := by decide +kernel
  rw [hfour] at hnames
  exact ⟨by decide +kernel, by decide +kernel, hnames fun heq => absurd heq htop, henumerated⟩

/-- Two ways to more than one for each name and one more. A filesystem to which nothing is the same
as the top has the shortcut there refreshed below the root; one that checks children by listing them
lists each of them, too. -/
theorem endless_selection_exceeds :
    let outside : FileSystem Unit :=
      { FileSystem.endless with sameDirectory := fun s _ _ => (false, s) }
    let checking : FileSystem (Unit × List Request) :=
      .ofListing FileSystem.endless.recorded.enumerate FileSystem.endless.recorded.resolve
    let atTop : Settings :=
      { Settings.unset with
        volumes := { VolumeSettings.unset with searchRoots := some [⟨"/", "Top"⟩] } }
    let tree := TreeView.unbound .everything atTop.volumeMap
    let listed :=
      ((TreeView.unbound .everything Settings.unset.volumeMap).select checking "/a" ((), [])).2.2
    (outside.LaysBelow (fun _ => True) Path.IsPiece ∧ outside.ResolvesInPlace ∧
      (tree.select outside "/" ()).1 = some (.error (.notFound "/")) ∧
      issuedBy (tree.selectMoves outside (tree.descentBudget "/") "/" ()) = [1, 2] ∧
      (Path.segments (Path.normalize "/")).length + 1 = 1) ∧
    checking.LaysBelow (fun _ => True) Path.IsPiece ∧ checking.ResolvesInPlace ∧
      enumerated listed.2 = ["/a", "/a/A", "/a/b"] ∧
      (Path.segments (Path.normalize "/a")).length + 1 = 2 := by
  have hlists : FileSystem.endless.LaysBelow (fun _ => True) Path.IsPiece :=
    (FileSystem.endless_listsBelow fun _ => True).lays.imp fun _ hname => hname.isPiece
  intro outside checking atTop tree listed
  refine ⟨⟨⟨hlists.listed, hlists.in_place⟩, endless_resolvesInPlace, ?_⟩,
    ⟨hlists.recorded.listed, hlists.recorded.in_place⟩, ?_, ?_⟩
  · decide +kernel
  · exact fun {s path found} h => @endless_resolvesInPlace s.1 path found h
  · decide +kernel

end Session

end LazyTree
