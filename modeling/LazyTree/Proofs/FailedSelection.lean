import LazyTree.FileSystem.Scripted
import LazyTree.Proofs.OnVolume
import LazyTree.Proofs.Passage

/-!
What a selection that fails leaves behind. Its last node was listed and leads no further, or could
not be listed; in the latter case the error is that of the refresh, and a root that fails takes the
whole tree along.
-/
namespace LazyTree
variable {σ : Type} {fs : FileSystem σ} {s s' : σ} {e : Failure}

theorem fetchVisible_error {filter : NameFilter} {volumes : VolumeMap} {handle : Handle}
    (h : (fetchVisible fs filter volumes handle s).1 = .error e) :
    (∃ cause, e = .io cause) ∨ ∃ path, e = .unresolvedPlaceholder path := by
  have hlisting {resolved : Option Handle} {dir : String} {s : σ}
      (h : (listDirectory fs filter volumes handle resolved dir s).1 = .error e) :
      ∃ cause, e = .io cause := by
    unfold listDirectory at h
    split at h
    · exact ⟨_, (Except.error.inj h).symm⟩
    · simp at h
  unfold fetchVisible at h
  split at h
  · simp at h
  · exact .inl (hlisting h)
  · split at h
    · exact .inl ⟨_, (Except.error.inj h).symm⟩
    · split at h
      · exact .inr ⟨_, (Except.error.inj h).symm⟩
      · exact .inl (hlisting h)

namespace TreeView
variable {tree last : TreeView} {id root current : NodeId} {node : Node} {target top : String}
variable {track : List NodeId} {moves first : List Move} {lister : Lister}

theorem expanded_before_ensureRoot (hlive : tree.node? id = some node)
    (h : (tree.ensureRoot top).1.arena.isExpanded id = true) : tree.arena.isExpanded id = true := by
  have hbind (hnew : (tree.bindTo top).1.arena.isExpanded id = true) : False := by
    obtain ⟨_, hnow, _⟩ := Arena.live_of_isExpanded hnew
    have hfresh : id = tree.arena.nextId := (id_bindTo hnow).trans (Arena.nextId_clear ..)
    exact Nat.lt_irrefl _ (hfresh ▸ (Arena.id_bounds hlive).2)
  unfold ensureRoot at h
  split at h
  · split at h
    · exact h
    · exact absurd h hbind
  · exact absurd h hbind

def FailsAt (fs : FileSystem σ) (lister : Lister) (moves : List Move) (id : NodeId) (e : Failure) :
    Prop :=
  ∃ ticket world, ticket.node = id ∧ .apply ticket (.error e) ∈ moves ∧
    (lister.fetch fs ticket world).1 = .error e

/-- The last node of a failing selection was listed and leads no further. -/
structure Missed (target : String) (moves : List Move) (id : NodeId) (e : Failure)
    (last : TreeView) : Prop where
  error : e = .notFound target
  issued : id ∈ issuedBy moves
  failed : failedBy moves = []
  missing : last.wayTo? id target = none

/-- The last node of a failing selection could not be listed. -/
structure Denied (fs : FileSystem σ) (lister : Lister) (root : NodeId) (moves : List Move)
    (id : NodeId) (e : Failure) (last : TreeView) : Prop where
  failed : failedBy moves = [id]
  refresh : FailsAt fs lister moves id e
  cleared : id = root → last.root = none ∧ ∀ i, last.node? i = none

theorem FailsAt.cause (h : FailsAt fs lister moves id e) :
    (∃ cause, e = .io cause) ∨ ∃ path, e = .unresolvedPlaceholder path :=
  let ⟨_, _, _, _, hfetch⟩ := h
  fetchVisible_error hfetch

theorem Halts.fails (h : Halts fs target root current tree s moves (.error e) last s')
    (hw : tree.WellFormed) :
    moves.all Move.still = true ∧ (root ∉ failedBy moves → moves.all Move.refreshes = true) ∧
      (Missed target moves current e last ∨ Denied fs tree.lister root moves current e last) := by
  cases h with
  | missed live _ level missing =>
    obtain ⟨hrefreshes, hissued, hfailed⟩ := listLevelMoves_of_ok hw live level
    exact ⟨still_listLevelMoves .., fun _ => hrefreshes,
      .inl ⟨rfl, hissued ▸ List.mem_singleton_self _, hfailed, missing⟩⟩
  | @failed _ node _ world _ _ _ live _ _ level =>
    obtain ⟨hfetch, hlast, hmoves⟩ := listLevel_error hw live level
    have hfailed : failedBy (listLevelMoves fs current root tree world) = [current] := by
      rw [hmoves]
      split <;> rfl
    refine ⟨still_listLevelMoves .., fun hroot => ?_, .inr ⟨hfailed, ?_, ?_⟩⟩
    · have hne : current ≠ root := by
        rintro rfl
        simp [hfailed] at hroot
      rw [hmoves, if_neg hne]
      rfl
    · refine ⟨⟨current, node.generation + 1, node.handle, false⟩, world, rfl, ?_, hfetch⟩
      rw [hmoves]
      exact List.mem_append_left _ (by simp)
    · rintro rfl
      rw [hlast, if_pos rfl]
      exact ⟨rfl, fun _ => Arena.get?_clear ..⟩

theorem Missed.prepend (h : Missed target moves id e last) (hfirst : failedBy first = []) :
    Missed target (first ++ moves) id e last where
  error := h.error
  issued := by
    rw [issuedBy_append]
    exact List.mem_append_right _ h.issued
  failed := by rw [failedBy_append, hfirst, h.failed, List.append_nil]
  missing := h.missing

theorem Denied.prepend (h : Denied fs lister root moves id e last) (hfirst : failedBy first = []) :
    Denied fs lister root (first ++ moves) id e last where
  failed := by rw [failedBy_append, hfirst, h.failed, List.nil_append]
  refresh :=
    let ⟨ticket, world, hnode, hmem, hfetch⟩ := h.refresh
    ⟨ticket, world, hnode, List.mem_append_right first hmem, hfetch⟩
  cleared := h.cleared

theorem Descent.fails {budget : Nat} {result : Option (Except Failure NodeId) × TreeView × σ}
    (h : Descent fs target root budget current tree s track moves result) (hw : tree.WellFormed)
    (he : result.1 = some (.error e)) :
    ∃ id, track.head? = some current ∧ track.getLast? = some id ∧
      moves.all Move.still = true ∧ (root ∉ failedBy moves → moves.all Move.refreshes = true) ∧
      (Missed target moves id e result.2.1 ∨ Denied fs tree.lister root moves id e result.2.1) := by
  cases h with
  | spent passage => simp at he
  | halted passage halts _ =>
    cases Option.some.inj he
    have hpassage := (passage.trail hw).run
    obtain ⟨hrefreshes, _, hfailed⟩ := passage.made hw
    obtain ⟨hstill, hending, hends⟩ := halts.fails (hpassage.wellFormed hw)
    have hlister := congrArg Prod.snd (hpassage.frame hw hrefreshes)
    simp only [TreeView.frame] at hlister
    refine ⟨_, passage.head?, List.getLast?_concat .., ?_, fun hroot => ?_, ?_⟩
    · rw [List.all_append, still_of_refreshes hrefreshes, hstill]
      rfl
    · rw [failedBy_append, hfailed, List.nil_append] at hroot
      rw [List.all_append, hrefreshes, hending hroot]
      rfl
    · rw [hlister] at hends
      exact hends.imp (·.prepend hfailed) (·.prepend hfailed)

/-- A tree that is bound to a volume and in which nothing is expanded that was collapsed before. -/
structure Spares (tree after : TreeView) (root : NodeId) (top : String) : Prop where
  root : after.root = some root
  bound : after.rootPath? = some top
  collapsed : ∀ id node, tree.node? id = some node → node.expanded = false →
    after.arena.isExpanded id = false

theorem selectWithin_fails (hw : tree.WellFormed) {budget : Nat} {path : String}
    (he : (selectWithin fs budget path tree s).1 = some (.error e)) :
    let target := Path.normalize path
    let top := tree.volumes.rootOf target
    let after := (selectWithin fs budget path tree s).2.1
    let moves := selectMoves fs budget path tree s
    after.selected = none ∧ ∃ root id, (selectTrack fs budget path tree s).head? = some root ∧
      (selectTrack fs budget path tree s).getLast? = some id ∧
      (root ∉ failedBy moves → Spares tree after root top) ∧
      (Missed target moves id e after ∨ Denied fs tree.lister root moves id e after) := by
  intro target top after moves
  rcases selectWithin_cases hw fs budget path s with
    ⟨id, _, hanswer, _⟩ | ⟨world, made, _, hbound, hdescent, hmoves⟩
  · simp [hanswer] at he
  · have hrun := (hdescent.trail hbound).run
    obtain ⟨id, hfirst, hlast, hstill, hrefreshes, hends⟩ := hdescent.fails hbound he
    have hsplit : moves = (ensureRootMoves tree top ++ [.deselect]) ++ made := by
      rw [List.append_assoc]
      exact hmoves
    have hnone : failedBy (ensureRootMoves tree top ++ [.deselect]) = [] := by
      unfold ensureRootMoves
      split <;> rfl
    refine ⟨hrun.unselected hbound hstill rfl, _, id, hfirst, hlast, fun hroot => ?_, ?_⟩
    · rw [hsplit, failedBy_append, hnone, List.nil_append] at hroot
      refine ⟨(root_of_frame (hdescent.frame hbound hroot)).trans (root_ensureRoot tree top),
        (hdescent.rootPath? hbound hroot).trans (rootPath?_ensureRoot tree top), ?_⟩
      intro i node hlive hcollapsed
      by_contra hopen
      rw [Bool.not_eq_false] at hopen
      have hwas := expanded_before_ensureRoot hlive
        (hrun.expanded_before hbound (hrefreshes hroot) hopen)
      rw [Arena.isExpanded_of_live hlive, hcollapsed] at hwas
      exact Bool.false_ne_true hwas
    · have hlister := lister_ensureRoot tree top
      rw [hsplit]
      refine hends.imp (·.prepend hnone) fun h => ?_
      exact (hlister ▸ h).prepend hnone

end TreeView

namespace Session

/-- What a selection that fails leaves. Nothing is selected. Where the root could not be refreshed
the tree is empty; otherwise it is bound to the volume of the target, and nothing that was there is
expanded that was not. The target is not found exactly if the last node was refreshed and leads no
further, and any other error is that of the last node's refresh. -/
theorem run_failed_selection_leaves (fs : FileSystem σ) (filter : NameFilter) (volumes : VolumeMap)
    (world : σ) (actions : List (Action σ)) (budget : Nat) (path : String) (e : Failure) :
    let x := (start filter volumes world).run fs actions
    let target := Path.normalize path
    let after := (x.tree.selectWithin fs budget path x.world).2.1
    let moves := x.tree.selectMoves fs budget path x.world
    (x.tree.selectWithin fs budget path x.world).1 = some (.error e) →
      TreeView.Trail fs x.tree x.world moves after
        (x.tree.selectWithin fs budget path x.world).2.2 ∧
      after.selected = none ∧ (∀ id, e ≠ .detached id) ∧
      ∃ root last, (x.tree.selectTrack fs budget path x.world).head? = some root ∧
        (x.tree.selectTrack fs budget path x.world).getLast? = some last ∧
        (root ∈ failedBy moves → after.root = none ∧ ∀ id, after.node? id = none) ∧
        (root ∉ failedBy moves → x.tree.Spares after root (volumes.rootOf target)) ∧
        (e = .notFound target ↔
          last ∈ issuedBy moves ∧ last ∉ failedBy moves ∧ after.wayTo? last target = none) ∧
        (e ≠ .notFound target → TreeView.FailsAt fs x.tree.lister moves last e) := by
  intro x target after moves he
  have hw : x.tree.WellFormed := wellFormed_run (wellFormed_start filter volumes world) fs actions
  have htrail := TreeView.selectWithin_trail hw fs budget path x.world
  obtain ⟨hselected, root, last, hfirst, hlast, hspares, hends⟩ :=
    TreeView.selectWithin_fails hw he
  rw [show x.tree.volumes = volumes from volumes_run fs filter volumes world actions] at hspares
  cases hends with
  | inl hmissed =>
    obtain ⟨rfl, hissued, hfailed, hmissing⟩ := hmissed
    refine ⟨htrail, hselected, by simp, root, last, hfirst, hlast, ?_, hspares, ?_,
      by simp [target]⟩
    · simp [moves, hfailed]
    · refine iff_of_true rfl ⟨hissued, ?_, hmissing⟩
      simp [moves, hfailed]
  | inr hdenied =>
    have hother : e ≠ .notFound target ∧ ∀ id, e ≠ .detached id := by
      rcases hdenied.refresh.cause with ⟨cause, rfl⟩ | ⟨dir, rfl⟩ <;> simp
    have hfailed : failedBy moves = [last] := hdenied.failed
    refine ⟨htrail, hselected, hother.2, root, last, hfirst, hlast, ?_, hspares, ?_,
      fun _ => hdenied.refresh⟩
    · intro hroot
      rw [hfailed] at hroot
      exact hdenied.cleared (List.mem_singleton.mp hroot).symm
    · refine iff_of_false hother.1 fun ⟨_, hnot, _⟩ => hnot ?_
      rw [hfailed]
      exact List.mem_singleton_self last

/-- A directory that cannot be listed stands in the way. -/
theorem refused_selection_leaves :
    let refused : Scripted :=
      { Scripted.empty with
        listings := [("/a", [.directory "/a/b"])], failures := [("/a/b", .permissionDenied)] }
    let tree := TreeView.unbound .everything ⟨"/net", [], "", "", [], []⟩
    let e := Failure.io (Scripted.injected .permissionDenied)
    (tree.selectWithin Scripted.fileSystem 4 "/a/b/c" refused).1 = some (.error e) ∧
      (tree.selectWithin Scripted.fileSystem 4 "/a/b/c" refused).2.1.rootPath? = some "/a" ∧
      TreeView.FailsAt Scripted.fileSystem tree.lister
        (tree.selectMoves Scripted.fileSystem 4 "/a/b/c" refused) 2 e := by
  intro refused tree e
  have herror : (tree.selectWithin Scripted.fileSystem 4 "/a/b/c" refused).1 = some (.error e) := by
    decide +kernel
  obtain ⟨_, _, _, root, last, hfirst, hlast, _, hspares, _, hother⟩ :=
    run_failed_selection_leaves Scripted.fileSystem .everything ⟨"/net", [], "", "", [], []⟩
      refused [] 4 "/a/b/c" e herror
  have htrack : tree.selectTrack Scripted.fileSystem 4 "/a/b/c" refused = [1, 2] := by
    decide +kernel
  obtain rfl : 1 = root := Option.some.inj ((congrArg List.head? htrack).symm.trans hfirst)
  obtain rfl : 2 = last := Option.some.inj ((congrArg List.getLast? htrack).symm.trans hlast)
  exact ⟨herror, (hspares (by decide +kernel)).bound, hother (by decide)⟩

end Session

end LazyTree
