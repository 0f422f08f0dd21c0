import LazyTree.Proofs.Trace

/-!
The moves of a refresh. It issues tickets, applies them and notes what its checks found. Such moves
leave root, filter and volumes alone, and they expand nothing.
-/
namespace LazyTree

namespace TreeView
variable {σ : Type} {fs : FileSystem σ} {tree tree' last : TreeView} {moves : List Move}
variable {move : Move} {target id i : NodeId} {node n : Node} {listing : Listing}
variable {children : List NodeId}

theorem refreshes_checkMoves (fs : FileSystem σ) (lister : Lister)
    (targets : List (NodeId × Handle)) (s : σ) :
    (checkMoves fs lister targets s).all Move.refreshes = true := by
  fun_induction checkMoves fs lister targets s with
  | case1 => rfl
  | case2 _ _ _ _ _ _ _ ih => exact ih
  | case3 _ _ _ _ _ _ _ ih => exact ih

theorem refreshes_visitMoves (fs : FileSystem σ) (lister : Lister) (id : NodeId)
    (recursive always : Bool) (tree : TreeView) (s : σ) :
    (visitMoves fs lister id recursive always tree s).all Move.refreshes = true := by
  unfold visitMoves appliedMoves
  split
  · rfl
  · dsimp only [List.all_cons, Move.refreshes, Bool.true_and]
    split
    · split
      · exact refreshes_checkMoves ..
      · rfl
    · rfl

theorem refreshes_cascadeMoves (fs : FileSystem σ) (lister : Lister) (count : Nat)
    (c : Cascade σ) : (cascadeMoves fs lister count c).all Move.refreshes = true := by
  induction count generalizing c with
  | zero => rfl
  | succ count ih =>
    unfold cascadeMoves
    split
    · rfl
    · rw [List.all_append, refreshes_visitMoves, ih, Bool.and_self]

theorem refreshes_afterVisitMoves (fs : FileSystem σ) (lister : Lister) (v : Visit σ) :
    (afterVisitMoves fs lister v).all Move.refreshes = true := by
  unfold afterVisitMoves
  split
  · exact refreshes_cascadeMoves ..
  · rfl

theorem refreshes_refreshMoves (fs : FileSystem σ) (id : NodeId) (recursive always : Bool)
    (tree : TreeView) (s : σ) :
    (refreshMoves fs id recursive always tree s).all Move.refreshes = true := by
  rw [refreshMoves, List.all_append, refreshes_visitMoves, refreshes_afterVisitMoves, Bool.and_self]

theorem refreshes_followMoves (fs : FileSystem σ) (changed : String) (tree : TreeView) (s : σ) :
    (followMoves fs changed tree s).all Move.refreshes = true := by
  unfold followMoves
  split
  · rfl
  · exact refreshes_refreshMoves ..

theorem refreshes_followAllMoves (fs : FileSystem σ) (changes : Touched) (tree : TreeView)
    (s : σ) : (followAllMoves fs changes tree s).all Move.refreshes = true := by
  cases changes with
  | root =>
    unfold followAllMoves
    dsimp only
    split
    · rfl
    · exact refreshes_refreshMoves ..
  | dirs dirs =>
    show (followDirsMoves fs dirs tree s).all Move.refreshes = true
    induction dirs generalizing tree s with
    | nil => rfl
    | cons dir dirs ih =>
      rw [followDirsMoves, List.all_append, refreshes_followMoves, Bool.true_and]
      exact ih ..

/-- Root, filter and volumes. -/
def frame (tree : TreeView) : Option NodeId × Lister := (tree.root, tree.lister)

theorem frame_act (hw : tree.WellFormed) (h : move.refreshes = true) :
    (tree.act move).frame = tree.frame := by
  cases move with
  | issue id recursive =>
    rw [act, issue_snd]
    rfl
  | apply ticket fetched =>
    rcases applyFetched_cases hw ticket fetched with hsame | ⟨_, _, _, _, _, _, happlied⟩
    · rw [act, hsame]
    · simp only [act, frame, lister, happlied.same_root, happlied.same_filter,
        happlied.same_volumes]
  | note id found =>
    rw [act, noteExpandable_eq]
    rfl
  | _ => simp [Move.refreshes] at h

theorem Run.frame (h : Run fs tree moves last) (hw : tree.WellFormed)
    (hmoves : moves.all Move.refreshes = true) : last.frame = tree.frame := by
  induction h with
  | nil => rfl
  | @cons tree _ move moves allowed _ ih =>
    rw [List.all_cons, Bool.and_eq_true] at hmoves
    exact (ih (hw.act allowed) hmoves.2).trans (frame_act hw hmoves.1)

theorem frame_refresh (hw : tree.WellFormed) (fs : FileSystem σ) (id : NodeId)
    (recursive : Bool) (s : σ) : (refresh fs id recursive tree s).2.1.frame = tree.frame :=
  (refresh_course hw fs id recursive s).run.frame hw (refreshes_refreshMoves ..)

theorem root_of_frame (h : last.frame = tree.frame) : last.root = tree.root := congrArg Prod.fst h

theorem filter_of_frame (h : last.frame = tree.frame) : last.filter = tree.filter :=
  congrArg (fun frame => frame.2.filter) h

theorem expand_cases (hw : tree.WellFormed) (fs : FileSystem σ) (id : NodeId) (s : σ) :
    (expand fs id tree s).2.1 = tree ∨
      let result := refresh fs id true (tree.setExpanded id true) s
      (expand fs id tree s).2.1 = result.2.1 ∧
          ((∃ totals, result.1 = .ok totals) ∨ tree.root = some id) ∨
        (expand fs id tree s).2.1 = result.2.1.setExpanded id false ∧
          (∃ e, result.1 = .error e) ∧ tree.root ≠ some id := by
  unfold expand
  split
  · have hroot := root_of_frame (frame_refresh (hw.setExpanded id true) fs id true s)
    rw [show (tree.setExpanded id true).root = tree.root from rfl] at hroot
    generalize refresh fs id true (tree.setExpanded id true) s = result at hroot ⊢
    obtain ⟨e | totals, refreshed, world⟩ := result
    · refine .inr ?_
      by_cases hid : tree.root = some id
      · exact .inl ⟨if_pos (hroot.trans hid), .inr hid⟩
      · exact .inr ⟨if_neg fun heq => hid (hroot.symm.trans heq), ⟨e, rfl⟩, hid⟩
    · exact .inr (.inl ⟨rfl, .inl ⟨totals, rfl⟩⟩)
  · exact .inl rfl

theorem Applied.expanded_before (ha : Applied tree tree' target node listing children)
    (hlive : tree.arena.get? target = some n) (hsame : n.expanded = node.expanded)
    (h : tree'.arena.isExpanded i = true) : tree.arena.isExpanded i = true := by
  obtain ⟨now, hnow, hexpanded⟩ := Arena.live_of_isExpanded h
  cases ha.relisted.origin hnow with
  | self eq =>
    rw [eq, Arena.isExpanded_of_live hlive, hsame]
    simp only [Node.relisted, Bool.and_eq_true] at hexpanded
    exact hexpanded.1
  | added _ _ _ => simp [Node.fresh] at hexpanded
  | kept _ live _ _ => exact (Arena.isExpanded_of_live live).trans hexpanded
  | untouched _ _ live => exact (Arena.isExpanded_of_live live).trans hexpanded

theorem isExpanded_bumped (tree : TreeView) (id i : NodeId) :
    (tree.bumped id).arena.isExpanded i = tree.arena.isExpanded i :=
  Arena.isExpanded_congr (map_get?_bumped (fun _ _ => by rfl) tree id i)

theorem isExpanded_note (tree : TreeView) (id : NodeId) (found : Bool) (i : NodeId) :
    (tree.noteExpandable id found).arena.isExpanded i = tree.arena.isExpanded i := by
  rw [noteExpandable_eq]
  exact Arena.isExpanded_congr (Arena.map_get?_modify (fun _ => by rfl) i)

theorem expanded_before_act (hw : tree.WellFormed) (hmove : move.refreshes = true)
    (h : (tree.act move).arena.isExpanded i = true) : tree.arena.isExpanded i = true := by
  cases move with
  | issue id recursive =>
    rw [act, issue_snd] at h
    exact (isExpanded_bumped tree id i).symm.trans h
  | apply ticket fetched =>
    rcases applyFetched_cases hw ticket fetched with hsame | ⟨_, _, _, _, hlive, _, happlied⟩
    · rwa [act, hsame] at h
    · exact happlied.expanded_before hlive rfl h
  | note id found => exact (isExpanded_note tree id found i).symm.trans h
  | _ => simp [Move.refreshes] at hmove

theorem Run.expanded_before (h : Run fs tree moves last) (hw : tree.WellFormed)
    (hmoves : moves.all Move.refreshes = true) (hi : last.arena.isExpanded i = true) :
    tree.arena.isExpanded i = true := by
  induction h with
  | nil => exact hi
  | cons allowed _ ih =>
    rw [List.all_cons, Bool.and_eq_true] at hmoves
    exact expanded_before_act hw hmoves.1 (ih (hw.act allowed) hmoves.2 hi)

end TreeView

end LazyTree
