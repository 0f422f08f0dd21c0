import LazyTree.Proofs.Refreshing
import LazyTree.Proofs.Session
import LazyTree.Proofs.Walk

/-!
What expands a node. Most moves expand nothing; a selection that arrives ends by expanding what lies
above the selected node, and only expanding and collapsing set a node's state by request. The root
is never collapsed.
-/
namespace LazyTree

def Move.still : Move → Bool
  | .setExpanded _ _ => false
  | .settle _ => false
  | _ => true

/-- A still move that keeps the filter. -/
def Move.quiet : Move → Bool
  | .useFilter _ => false
  | move => move.still

theorem quiet_of_refreshes {move : Move} (h : move.refreshes = true) : move.quiet = true := by
  cases move <;> first | rfl | simp [Move.refreshes] at h

theorem still_of_quiet {move : Move} (h : move.quiet = true) : move.still = true := by
  cases move <;> first | rfl | simp [Move.quiet, Move.still] at h

/-- A move of a refresh, or one that drops the whole tree. -/
def Move.lists : Move → Bool
  | .clear => true
  | move => move.refreshes

theorem lists_of_refreshes {move : Move} (h : move.refreshes = true) : move.lists = true := by
  cases move <;> first | rfl | exact h

theorem quiet_of_lists {move : Move} (h : move.lists = true) : move.quiet = true := by
  cases move <;> first | rfl | simp [Move.lists, Move.refreshes] at h

theorem all_of_all {p q : Move → Bool} (hpq : ∀ {move}, p move = true → q move = true)
    {moves : List Move} (h : moves.all p = true) : moves.all q = true := by
  rw [List.all_eq_true] at h ⊢
  exact fun move hmove => hpq (h move hmove)

theorem still_of_refreshes {moves : List Move} (h : moves.all Move.refreshes = true) :
    moves.all Move.still = true := all_of_all (still_of_quiet ∘ quiet_of_refreshes) h

/-- Allowed moves, and then at most the arrival at a selection. -/
def Settling (allowed : Move → Bool) (moves : List Move) : Prop :=
  moves.all allowed = true ∨
    ∃ first id, moves = first ++ [.settle id] ∧ first.all allowed = true

theorem Settling.prepend {allowed : Move → Bool} {first moves : List Move}
    (hfirst : first.all allowed = true) (h : Settling allowed moves) :
    Settling allowed (first ++ moves) := by
  rcases h with hall | ⟨mid, id, rfl, hmid⟩
  · exact .inl (by rw [List.all_append, hfirst, hall, Bool.and_self])
  · exact .inr ⟨first ++ mid, id, (List.append_assoc ..).symm,
      by rw [List.all_append, hfirst, hmid, Bool.and_self]⟩

theorem Settling.mono {p q : Move → Bool} (hpq : ∀ {move}, p move = true → q move = true)
    {moves : List Move} (h : Settling p moves) : Settling q moves := by
  rcases h with hall | ⟨first, id, heq, hfirst⟩
  · exact .inl (all_of_all hpq hall)
  · exact .inr ⟨first, id, heq, all_of_all hpq hfirst⟩

namespace Arena
variable {arena : Arena} {top id i parent : NodeId} {node : Node} {from? : Option NodeId}
variable {height : Nat}

theorem LinkedBy.lists_below {lists : NodeId → List NodeId} (h : arena.LinkedBy lists)
    (hu : arena.Under top id) (hne : id ≠ top) : ∃ child ∈ lists top, arena.Under child id := by
  induction hu with
  | self _ => exact absurd rfl hne
  | @step id parent _ live up above ih =>
    by_cases hp : parent = top
    · exact ⟨id, hp ▸ h.listed live up, .self live⟩
    · obtain ⟨child, hc, hbelow⟩ := ih hp
      exact ⟨child, hc, .step live up hbelow⟩

end Arena

namespace TreeView
variable {σ : Type} {fs : FileSystem σ} {tree tree' : TreeView} {id i : NodeId} {node now : Node}
variable {arena : Arena} {height : Nat} {from? : Option NodeId} {move : Move} {moves : List Move}
variable {expanded : Bool}

theorem isExpanded_setExpanded_of_ne (hi : i ≠ id) :
    (tree.setExpanded id expanded).arena.isExpanded i = tree.arena.isExpanded i :=
  Arena.isExpanded_congr (congrArg _ (Arena.get?_modify_of_ne hi _))

theorem isExpanded_setExpanded_self (hlive : tree.arena.get? id = some node) :
    (tree.setExpanded id expanded).arena.isExpanded id = expanded := by
  simp [setExpanded, TreeView.modify, Arena.isExpanded, hlive]

theorem isExpanded_expandUpwards_of_expanded (h : arena.isExpanded i = true) :
    (expandUpwards arena height from?).isExpanded i = true := by
  fun_induction expandUpwards arena height from? with
  | case1 => exact h
  | case2 => exact h
  | case3 => exact h
  | case4 arena height above node hlive ih =>
    refine ih ?_
    by_cases hi : i = above
    · subst hi
      simp [Arena.isExpanded, hlive]
    · rwa [Arena.isExpanded_congr (congrArg _ (Arena.get?_modify_of_ne hi _))]

theorem expandUpwards_cases (h : (expandUpwards arena height from?).get? i = some now) :
    arena.get? i = some now ∨ ∃ node first, from? = some first ∧ arena.Under i first ∧
      arena.get? i = some node ∧ now = { node with expanded := true } := by
  fun_induction expandUpwards arena height from? with
  | case1 => exact .inl h
  | case2 => exact .inl h
  | case3 => exact .inl h
  | case4 arena height first node hlive ih =>
    have hparent (j : NodeId) : ((arena.modify first fun n => { n with expanded := true }).get?
        j).map Node.parent = (arena.get? j).map Node.parent :=
      Arena.map_get?_modify (fun _ => by rfl) j
    rcases ih h with hwas | ⟨was, next, hup, hu, hwas, rfl⟩
    · rcases Arena.get?_modify_cases hwas with ⟨_, hsame⟩ | ⟨rfl, was, hsame, rfl⟩
      · exact .inl hsame
      · exact .inr ⟨was, i, rfl, .self hsame, hsame, rfl⟩
    · have hu : arena.Under i first := .step hlive hup (hu.congr hparent)
      rcases Arena.get?_modify_cases hwas with ⟨_, hsame⟩ | ⟨rfl, node, hsame, rfl⟩
      · exact .inr ⟨was, first, rfl, hu, hsame, rfl⟩
      · exact .inr ⟨node, i, rfl, hu, hsame, rfl⟩

theorem exists_way_up (hl : arena.Linked) (hu : arena.Under i id) :
    ∃ way : List NodeId, way.Nodup ∧
      (∀ j ∈ way, j ≤ id ∧ ∃ node, arena.get? j = some node) ∧
      ∀ other : Arena, (∀ j, (other.get? j).map Node.parent = (arena.get? j).map Node.parent) →
        ∀ height, way.length ≤ height →
          (expandUpwards other height (some id)).isExpanded i = true := by
  -- The way is as long as the expansion has to be high; on it ids grow downwards.
  induction hu with
  | @self node live =>
    refine ⟨[i], by simp, by simpa using ⟨node, live⟩, fun other hsame height hheight => ?_⟩
    cases height with
    | zero => simp at hheight
    | succ height =>
      obtain ⟨now, hnow, _⟩ := Arena.live_of_map_get?_eq (hsame i) live
      rw [expandUpwards, hnow]
      exact isExpanded_expandUpwards_of_expanded (by simp [Arena.isExpanded, hnow])
  | @step id parent node live up above ih =>
    obtain ⟨way, hnodup, hway, hreach⟩ := ih
    have hlt := hl.parent_lt live up
    refine ⟨id :: way, List.nodup_cons.mpr ⟨fun hmem => ?_, hnodup⟩, fun j hj => ?_,
      fun other hsame height hheight => ?_⟩
    · exact Nat.not_lt.mpr (hway id hmem).1 hlt
    · rcases List.mem_cons.mp hj with rfl | hj
      · exact ⟨Nat.le_refl _, node, live⟩
      · obtain ⟨hle, hlive⟩ := hway j hj
        exact ⟨Nat.le_of_lt (Nat.lt_of_le_of_lt hle hlt), hlive⟩
    · cases height with
      | zero => simp at hheight
      | succ height =>
        obtain ⟨now, hnow, hparent⟩ := Arena.live_of_map_get?_eq (hsame id) live
        rw [expandUpwards, hnow]
        dsimp only
        rw [hparent, up]
        refine hreach _ (fun j => ?_) height (Nat.le_of_succ_le_succ hheight)
        exact (Arena.map_get?_modify (fun _ => by rfl) j).trans (hsame j)

theorem isExpanded_settle (hw : tree.WellFormed) (hu : tree.arena.Under i id) (hne : i ≠ id) :
    (tree.settle id).arena.isExpanded i = true := by
  obtain ⟨node, hlive⟩ := hu.live
  obtain ⟨parent, hup, habove⟩ := hu.up hne.symm hlive
  obtain ⟨way, hnodup, hway, hreach⟩ := exists_way_up hw.linked habove
  have hlength := Arena.length_le_size hnodup fun j hj => (hway j hj).2
  have hfrom : (tree.node? id).bind Node.parent = some parent := by
    simp [node?, hlive, hup]
  rw [settle, uncover, hfrom]
  exact hreach tree.arena (fun _ => rfl) tree.size hlength

theorem settle_cases (hw : tree.WellFormed) (h : (tree.settle id).arena.get? i = some now) :
    tree.arena.get? i = some now ∨ ∃ node, tree.arena.Under i id ∧ i ≠ id ∧
      tree.arena.get? i = some node ∧ now = { node with expanded := true } := by
  rcases expandUpwards_cases h with hsame | ⟨node, parent, hfrom, hu, hlive, rfl⟩
  · exact .inl hsame
  · obtain ⟨child, hchild, hup⟩ := Option.bind_eq_some_iff.mp hfrom
    have hlt := hw.linked.parent_lt hchild hup
    refine .inr ⟨node, .step hchild hup hu, Nat.ne_of_lt ?_, hlive, rfl⟩
    exact Nat.lt_of_le_of_lt (hw.linked.le_of_under hu) hlt

def RootOpen (tree : TreeView) : Prop :=
  ∀ root, tree.root = some root → tree.arena.isExpanded root = true

theorem RootOpen.of_expanded (h : tree.RootOpen) (hroot : tree'.root = tree.root)
    (hexpanded : ∀ i, tree.arena.isExpanded i = true → tree'.arena.isExpanded i = true) :
    tree'.RootOpen := fun root hr => hexpanded root (h root (hroot.symm.trans hr))

theorem RootOpen.applied {target : NodeId} {listing : Listing} {children : List NodeId}
    (h : tree.RootOpen) (ha : Applied tree tree' target node listing children)
    (hw : tree.WellFormed) (hlive : tree.arena.get? target = some node) : tree'.RootOpen := by
  intro root hroot
  have hwas : tree.root = some root := ha.same_root.symm.trans hroot
  have hopen := h root hwas
  obtain ⟨now, hnow, _⟩ := (ha.wellFormed hw hlive).root_live hroot
  obtain ⟨was, hrootLive, _⟩ := hw.root_live hwas
  rw [Arena.isExpanded_of_live hrootLive] at hopen
  rw [Arena.isExpanded_of_live hnow]
  cases ha.relisted.origin hnow with
  | self eq =>
    subst eq
    obtain rfl := Option.some.inj (hlive.symm.trans hrootLive)
    simp [Node.relisted, hopen, hwas]
  | added _ fresh _ => exact absurd (Arena.id_bounds hrootLive).2 (Nat.not_lt.mpr fresh)
  | kept _ live _ _ =>
    obtain rfl := Option.some.inj (live.symm.trans hrootLive)
    exact hopen
  | untouched _ _ live =>
    obtain rfl := Option.some.inj (live.symm.trans hrootLive)
    exact hopen

theorem RootOpen.act (h : tree.RootOpen) (hw : tree.WellFormed) (hmove : move.still = true) :
    (tree.act move).RootOpen := by
  cases move with
  | issue id recursive =>
    rw [TreeView.act, issue_snd]
    exact h.of_expanded rfl fun i hi => (isExpanded_bumped tree id i).trans hi
  | apply ticket fetched =>
    rcases applyFetched_cases hw ticket fetched with hsame | ⟨_, _, _, _, hlive, _, happlied⟩
    · rwa [TreeView.act, hsame]
    · exact h.applied happlied hw hlive
  | note id found => exact h.of_expanded rfl fun i hi => (isExpanded_note tree id found i).trans hi
  | useFilter filter => exact h
  | clear => simp [RootOpen, TreeView.act, clear]
  | bindTo top =>
    intro root hroot
    obtain ⟨node, hlive, _⟩ := (wellFormed_bindTo tree top).root_live hroot
    rw [TreeView.act, Arena.isExpanded_of_live hlive, get?_bindTo hlive]
  | deselect => exact h
  | _ => simp [Move.still] at hmove

theorem RootOpen.settle (h : tree.RootOpen) (id : NodeId) : (tree.settle id).RootOpen :=
  h.of_expanded rfl fun _ => isExpanded_expandUpwards_of_expanded

theorem RootOpen.setExpanded (h : tree.RootOpen) (hroot : tree.root = some id → expanded = true) :
    (tree.setExpanded id expanded).RootOpen := by
  intro root hr
  by_cases hid : root = id
  · subst hid
    obtain ⟨node, hlive, _⟩ := Arena.live_of_isExpanded (h root hr)
    exact (isExpanded_setExpanded_self hlive).trans (hroot hr)
  · exact (isExpanded_setExpanded_of_ne hid).trans (h root hr)

theorem foldl_still {motive : TreeView → Prop} (hw : tree.WellFormed)
    (hact : ∀ {tree move}, tree.WellFormed → move.still = true → motive tree →
      motive (tree.act move))
    (hmoves : moves.all Move.still = true) (h : motive tree) :
    motive (moves.foldl act tree) ∧ (moves.foldl act tree).WellFormed := by
  induction moves generalizing tree with
  | nil => exact ⟨h, hw⟩
  | cons move moves ih =>
    rw [List.all_cons, Bool.and_eq_true] at hmoves
    refine ih (hw.act_of_live ?_) hmoves.2 (hact hw hmoves.1 h)
    rintro id rfl
    simp [Move.still] at hmoves

theorem RootOpen.foldl (h : tree.RootOpen) (hw : tree.WellFormed)
    (hmoves : moves.all Move.still = true) : (moves.foldl TreeView.act tree).RootOpen :=
  (foldl_still hw (fun hw hmove h => h.act hw hmove) hmoves h).1

theorem still_refreshMoves (fs : FileSystem σ) (id : NodeId) (recursive always : Bool)
    (tree : TreeView) (s : σ) :
    (refreshMoves fs id recursive always tree s).all Move.still = true :=
  still_of_refreshes (refreshes_refreshMoves ..)

theorem still_useFilterMoves (fs : FileSystem σ) (filter : NameFilter) (tree : TreeView) (s : σ) :
    (useFilterMoves fs filter tree s).all Move.still = true := by
  unfold useFilterMoves
  split
  · rfl
  · dsimp only [List.all_cons, Move.still, Bool.true_and]
    split
    · exact still_refreshMoves ..
    · rfl

theorem lists_listLevelMoves (fs : FileSystem σ) (id root : NodeId) (tree : TreeView) (s : σ) :
    (listLevelMoves fs id root tree s).all Move.lists = true := by
  rw [listLevelMoves, List.all_append, all_of_all lists_of_refreshes (refreshes_refreshMoves ..),
    Bool.true_and]
  split
  · rfl
  · split <;> rfl

theorem settling_arriveMoves (fs : FileSystem σ) (id root : NodeId) (handle : Handle)
    (tree : TreeView) (s : σ) : Settling Move.lists (arriveMoves fs id root handle tree s) := by
  unfold arriveMoves
  split
  · split
    · exact .inr ⟨_, id, rfl, lists_listLevelMoves ..⟩
    · exact .prepend (lists_listLevelMoves ..) (.inl rfl)
  · exact .inr ⟨[], id, rfl, rfl⟩

theorem settling_descendMoves (fs : FileSystem σ) (target : String) (root : NodeId)
    (budget : Nat) (current : NodeId) (tree : TreeView) (s : σ) :
    Settling Move.lists (descendMoves fs target root budget current tree s) := by
  induction budget generalizing current tree s with
  | zero => exact .inl rfl
  | succ budget ih =>
    unfold descendMoves
    split
    · exact .inl rfl
    · split
      · exact settling_arriveMoves ..
      · split
        · exact ih ..
        · refine .prepend (lists_listLevelMoves ..) ?_
          split
          · exact .inl rfl
          · split
            · exact ih ..
            · exact .inl rfl

theorem settling_selectMoves (fs : FileSystem σ) (budget : Nat) (path : String) (tree : TreeView)
    (s : σ) : Settling Move.quiet (selectMoves fs budget path tree s) := by
  unfold selectMoves
  dsimp only
  split
  · exact .inl rfl
  · have hbind (top : String) : (tree.ensureRootMoves top).all Move.quiet = true := by
      unfold ensureRootMoves
      split <;> rfl
    have hdeselect : [Move.deselect].all Move.quiet = true := rfl
    refine .prepend (hbind _) (.prepend hdeselect ?_)
    exact (settling_descendMoves ..).mono quiet_of_lists

theorem rootOpen_expand (h : tree.RootOpen) (hw : tree.WellFormed) (fs : FileSystem σ)
    (id : NodeId) (s : σ) : (expand fs id tree s).2.1.RootOpen := by
  have hw' := hw.setExpanded id true
  have hexpanded : (tree.setExpanded id true).RootOpen := h.setExpanded fun _ => rfl
  have hrefreshed : (refresh fs id true (tree.setExpanded id true) s).2.1.RootOpen := by
    rw [(refresh_course hw' fs id true s).run.last_eq]
    exact hexpanded.foldl hw' (still_refreshMoves ..)
  have hroot := root_of_frame (frame_refresh hw' fs id true s)
  rcases expand_cases hw fs id s with hsame | ⟨heq, _⟩ | ⟨heq, _, hne⟩
  · rwa [hsame]
  · rwa [heq]
  · rw [heq]
    exact hrefreshed.setExpanded fun heq => absurd (hroot.symm.trans heq) hne

theorem rootOpen_collapse (h : tree.RootOpen) (id : NodeId) : (tree.collapse id).2.RootOpen := by
  unfold collapse
  split
  · exact h
  · rename_i hne
    split
    · exact h.setExpanded fun hroot => absurd hroot hne
    · exact h

/-- A property of a node that matters while the node is expanded. Each listing of the node brings it
about, and what does not expand the node keeps it. -/
structure WhileExpanded (motive : TreeView → NodeId → Prop) : Prop where
  listed : ∀ {tree last : TreeView} {id : NodeId} {node : Node} {listing : Listing}
    {children : List NodeId}, Applied tree last id node listing children → motive last id
  act : ∀ {tree : TreeView} {move : Move} {i : NodeId}, tree.WellFormed → move.still = true →
    motive tree i → motive (tree.act move) i
  setExpanded : ∀ {tree : TreeView} {id i : NodeId} {expanded : Bool}, motive tree i →
    (expanded = true → i = id → tree.arena.isExpanded id = true) →
    motive (tree.setExpanded id expanded) i
  collapsed : ∀ (tree : TreeView) (id : NodeId), motive (tree.setExpanded id false) id

namespace WhileExpanded
variable {motive : TreeView → NodeId → Prop} {s : σ}

theorem foldl (hm : WhileExpanded motive) (h : motive tree i) (hw : tree.WellFormed)
    (hmoves : moves.all Move.still = true) : motive (moves.foldl TreeView.act tree) i :=
  (foldl_still (motive := fun tree => motive tree i) hw (fun hw hmove h => hm.act hw hmove h)
    hmoves h).1

theorem of_visit (hm : WhileExpanded motive) (hw : tree.WellFormed) {lister : Lister}
    {recursive always : Bool} {application : Application}
    (h : (visit fs lister id recursive always tree s).answer = .ok application) :
    motive (visit fs lister id recursive always tree s).tree id := by
  cases hlive : tree.arena.get? id with
  | none => simp [visit_of_dead hlive] at h
  | some node =>
    rcases visit_of_live hw hlive fs lister recursive always s with
      ⟨e, _, heq⟩ | ⟨listing, outcome, listed, children, _, happlied, _, heq⟩
    · simp [heq] at h
    · rw [heq, (visitChecks_run ..).last_eq]
      have hlisted := happlied.wellFormed (hw.bumped id) (get?_bumped hlive)
      refine hm.foldl (hm.listed happlied) hlisted (still_of_refreshes ?_)
      split
      · exact refreshes_checkMoves ..
      · rfl

theorem of_refresh (hm : WhileExpanded motive) (hw : tree.WellFormed) {recursive : Bool}
    {totals : Totals} (h : (refresh fs id recursive tree s).1 = .ok totals) :
    motive (refresh fs id recursive tree s).2.1 id := by
  have hrun := (refresh_course hw fs id recursive s).run
  rw [refreshMoves] at hrun
  obtain ⟨hfirst, hafter⟩ := hrun.split
  rw [hafter.last_eq]
  refine hm.foldl ?_ (hfirst.wellFormed hw) (still_of_refreshes (refreshes_afterVisitMoves ..))
  rw [← (visit_run ..).last_eq]
  rw [refresh, refreshWith_eq] at h
  cases hanswer : (visit fs tree.lister id recursive false tree s).answer with
  | error e => simp [hanswer] at h
  | ok application => exact hm.of_visit hw hanswer

theorem expand (hm : WhileExpanded motive) (h : ∀ i, motive tree i) (hw : tree.WellFormed)
    (hopen : tree.RootOpen) (fs : FileSystem σ) (id : NodeId) (s : σ) (i : NodeId) :
    motive (expand fs id tree s).2.1 i := by
  have hw' := hw.setExpanded id true
  have hrest (hi : i = id → tree.arena.isExpanded id = true) :
      motive (refresh fs id true (tree.setExpanded id true) s).2.1 i := by
    rw [(refresh_course hw' fs id true s).run.last_eq]
    exact hm.foldl (hm.setExpanded (h i) fun _ => hi) hw' (still_refreshMoves ..)
  rcases expand_cases hw fs id s with hsame | ⟨heq, ⟨totals, hok⟩ | hroot⟩ | ⟨heq, _⟩
  · rw [hsame]
    exact h i
  · rw [heq]
    by_cases hi : i = id
    · subst hi
      exact hm.of_refresh hw' hok
    · exact hrest fun heq => absurd heq hi
  · rw [heq]
    exact hrest fun _ => hopen id hroot
  · rw [heq]
    by_cases hi : i = id
    · subst hi
      exact hm.collapsed _ i
    · exact hm.setExpanded (hrest fun heq => absurd heq hi) (by simp)

theorem collapse (hm : WhileExpanded motive) (h : ∀ i, motive tree i) (id i : NodeId) :
    motive (tree.collapse id).2 i := by
  unfold TreeView.collapse
  split
  · exact h i
  · split
    · exact hm.setExpanded (h i) (by simp)
    · exact h i

end WhileExpanded

theorem children_ne_nil_of_under (hw : tree.WellFormed) (hu : tree.arena.Under i id) (hne : i ≠ id)
    (hlive : tree.arena.get? i = some node) : node.children ≠ [] := by
  obtain ⟨child, hchild, _⟩ := hw.linked.lists_below hu hne.symm
  rw [Arena.childrenOf_of_live hlive] at hchild
  exact List.ne_nil_of_mem hchild

end TreeView

namespace Session
variable {σ : Type} {fs : FileSystem σ} {x : Session σ}

theorem still_moves_or (fs : FileSystem σ) (x : Session σ) (action : Action σ) :
    (x.moves fs action).all Move.still = true ∨
      (∃ path budget, action = .operate (.select path budget)) ∨
      (∃ id, action = .operate (.expand id)) ∨ ∃ id, action = .operate (.collapse id) := by
  cases action with
  | operate operation =>
    cases operation with
    | select path budget => exact .inr (.inl ⟨path, budget, rfl⟩)
    | refresh id recursive => exact .inl (TreeView.still_refreshMoves ..)
    | expand id => exact .inr (.inr (.inl ⟨id, rfl⟩))
    | collapse id => exact .inr (.inr (.inr ⟨id, rfl⟩))
    | useFilter filter => exact .inl (TreeView.still_useFilterMoves ..)
    | clear => exact .inl rfl
    | follow changed => exact .inl (still_of_refreshes (TreeView.refreshes_followMoves ..))
    | followAll changes => exact .inl (still_of_refreshes (TreeView.refreshes_followAllMoves ..))
  | issue _ _ | apply _ | applyFailure _ _ =>
    refine .inl ?_
    simp only [moves]
    split <;> rfl
  | _ => exact .inl rfl

theorem moves_cases (fs : FileSystem σ) (x : Session σ) (action : Action σ) :
    Settling Move.still (x.moves fs action) ∨ (∃ id, action = .operate (.expand id)) ∨
      ∃ id, action = .operate (.collapse id) := by
  rcases still_moves_or fs x action with hstill | ⟨path, budget, rfl⟩ | hexpand
  · exact .inl (.inl hstill)
  · exact .inl ((TreeView.settling_selectMoves ..).mono still_of_quiet)
  · exact .inr hexpand

theorem rootOpen_act (h : x.tree.RootOpen) (hw : x.tree.WellFormed) (fs : FileSystem σ)
    (action : Action σ) : (x.act fs action).tree.RootOpen := by
  have htree := (effect_act fs x action).eq_foldl hw
  rcases moves_cases fs x action with (hstill | ⟨first, id, hmoves, hfirst⟩) | ⟨id, rfl⟩ | ⟨id, rfl⟩
  · rw [htree]
    exact h.foldl hw hstill
  · rw [htree, hmoves, List.foldl_append]
    exact (h.foldl hw hfirst).settle id
  · exact TreeView.rootOpen_expand h hw fs id x.world
  · exact TreeView.rootOpen_collapse h id

theorem rootOpen_run (h : x.tree.RootOpen) (hw : x.tree.WellFormed) (fs : FileSystem σ)
    (actions : List (Action σ)) : (x.run fs actions).tree.RootOpen := by
  induction actions generalizing x with
  | nil => exact h
  | cons action actions ih =>
    exact ih (rootOpen_act h hw fs action) ((effect_act fs x action).wellFormed hw)

/-- An action keeps a property of expanded nodes if arriving at a selection keeps it. -/
theorem whileExpanded_act {motive : TreeView → NodeId → Prop}
    (hm : TreeView.WhileExpanded motive) (h : ∀ i, motive x.tree i) (hw : x.tree.WellFormed)
    (hopen : x.tree.RootOpen) {action : Action σ}
    (hsettle : ∀ first id, x.moves fs action = first ++ [.settle id] →
      let mid := first.foldl TreeView.act x.tree
      mid.WellFormed → ∀ i, motive mid i → motive (mid.settle id) i) :
    ∀ i, motive (x.act fs action).tree i := by
  intro i
  have htree := (effect_act fs x action).eq_foldl hw
  rcases moves_cases fs x action with (hstill | ⟨first, id, hmoves, hfirst⟩) | ⟨id, rfl⟩ | ⟨id, rfl⟩
  · rw [htree]
    exact hm.foldl (h i) hw hstill
  · have hmid : (first.foldl TreeView.act x.tree).WellFormed :=
      (effect_act fs x action).wellFormed_within hw hmoves
    rw [htree, hmoves, List.foldl_append]
    exact hsettle first id hmoves hmid i (hm.foldl (h i) hw hfirst)
  · exact hm.expand h hw hopen fs id x.world i
  · exact hm.collapse h id i

end Session

end LazyTree
