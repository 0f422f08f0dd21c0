import LazyTree.Proofs.Expansion
import LazyTree.FileSystem.Scripted

/-!
The flag of an expanded node. A listing sets it by the children it brings, and the checks for
sub-directories pass expanded nodes by. Only a selection expands nodes without listing them, those
above the selected one; their flag is then the one of their last check, and this is the one way in
which a node comes to show children while its flag denies them.
-/
namespace LazyTree

def Node.flags (node : Node) : List NodeId × Bool × Bool :=
  (node.children, node.expanded, node.expandable)

namespace TreeView
variable {σ : Type} {fs : FileSystem σ} {tree tree' : TreeView} {target id i : NodeId}
variable {node : Node} {listing : Listing} {children : List NodeId} {move : Move}
variable {moves : List Move} {s s' : σ} {P : List NodeId → Bool → Prop}

/-- While the node is expanded, `P` relates its children and its flag. -/
def Flagged (P : List NodeId → Bool → Prop) (tree : TreeView) (id : NodeId) : Prop :=
  ∀ node, tree.arena.get? id = some node → node.expanded = true → P node.children node.expandable

theorem Flagged.of_same (h : tree.Flagged P id)
    (hsame : (tree'.arena.get? id).map Node.flags = (tree.arena.get? id).map Node.flags) :
    tree'.Flagged P id := by
  intro now hnow hexpanded
  obtain ⟨was, hwas, heq⟩ := Arena.live_of_map_get?_eq hsame.symm hnow
  simp only [Node.flags, Prod.mk.injEq] at heq
  obtain ⟨hchildren, hshown, hflag⟩ := heq
  exact hchildren ▸ hflag ▸ h was hwas (hshown.trans hexpanded)

section
variable (hP : ∀ children : List NodeId, P children (!children.isEmpty))
include hP

theorem Applied.flagged (ha : Applied tree tree' target node listing children) :
    tree'.Flagged P target := by
  intro now hnow _
  obtain rfl := Option.some.inj (hnow.symm.trans ha.relisted.self)
  exact hP children

theorem Flagged.applied (h : tree.Flagged P id)
    (ha : Applied tree tree' target node listing children) : tree'.Flagged P id := by
  intro now hnow hexpanded
  cases ha.relisted.origin hnow with
  | self eq =>
    subst eq
    exact ha.flagged hP _ hnow hexpanded
  | added _ _ _ => simp [Node.fresh] at hexpanded
  | @kept _ was _ live _ _ => exact h was live hexpanded
  | untouched _ _ live => exact h now live hexpanded

theorem Flagged.act (h : tree.Flagged P id) (hw : tree.WellFormed) (hmove : move.still = true) :
    (tree.act move).Flagged P id := by
  cases move with
  | issue target recursive =>
    rw [TreeView.act, issue_snd]
    exact h.of_same (map_get?_bumped (fun _ _ => rfl) tree target id)
  | apply ticket fetched =>
    rcases applyFetched_cases hw ticket fetched with hsame | ⟨_, _, _, _, _, _, happlied⟩
    · rwa [TreeView.act, hsame]
    · exact h.applied hP happlied
  | note target found =>
    rw [TreeView.act, noteExpandable_eq]
    intro now hnow hexpanded
    rcases Arena.get?_modify_cases hnow with ⟨_, hlive⟩ | ⟨rfl, was, hwas, rfl⟩
    · exact h now hlive hexpanded
    · have hshown : was.expanded = true := hexpanded
      simpa [hshown] using h was hwas hshown
  | useFilter filter => exact h
  | clear => simp [Flagged, TreeView.act, clear]
  | bindTo top =>
    intro now hnow _
    rw [get?_bindTo hnow]
    exact hP []
  | deselect => exact h
  | _ => simp [Move.still] at hmove

end

theorem Flagged.setExpanded (h : tree.Flagged P i) {expanded : Bool}
    (hnew : expanded = true → i = id → tree.arena.isExpanded id = true) :
    (tree.setExpanded id expanded).Flagged P i := by
  intro now hnow hexpanded
  rcases Arena.get?_modify_cases hnow with ⟨_, hlive⟩ | ⟨rfl, was, hwas, rfl⟩
  · exact h now hlive hexpanded
  · have hshown := hnew hexpanded rfl
    rw [Arena.isExpanded_of_live hwas] at hshown
    exact h was hwas hshown

theorem flagged_of_collapsed (P : List NodeId → Bool → Prop) (tree : TreeView) (id : NodeId) :
    (tree.setExpanded id false).Flagged P id := by
  intro now hnow hexpanded
  rcases Arena.get?_modify_cases hnow with ⟨hne, _⟩ | ⟨_, was, _, rfl⟩
  · exact absurd rfl hne
  · simp at hexpanded

theorem Flagged.settle (h : tree.Flagged P i) (hw : tree.WellFormed)
    (habove : tree.arena.Under i id → i ≠ id → ∀ node, tree.arena.get? i = some node →
      P node.children node.expandable) : (tree.settle id).Flagged P i := by
  intro now hnow hexpanded
  rcases settle_cases hw hnow with hsame | ⟨node, hu, hne, hlive, rfl⟩
  · exact h now hsame hexpanded
  · exact habove hu hne node hlive

theorem flagged_whileExpanded (hP : ∀ children : List NodeId, P children (!children.isEmpty)) :
    WhileExpanded (Flagged P) where
  listed ha := ha.flagged hP
  act hw hmove h := h.act hP hw hmove
  setExpanded h := h.setExpanded
  collapsed := flagged_of_collapsed P

/-- Every expanded node says by its flag whether it has children. -/
def FlagsFit (tree : TreeView) : Prop :=
  ∀ id node, tree.node? id = some node → node.expanded = true →
    node.expandable = !node.children.isEmpty

end TreeView

namespace Session
variable {σ : Type} {fs : FileSystem σ} {x : Session σ} {P : List NodeId → Bool → Prop}

theorem flagged_act (hP : ∀ children : List NodeId, P children (!children.isEmpty))
    (h : ∀ i, x.tree.Flagged P i) (hw : x.tree.WellFormed) (hopen : x.tree.RootOpen)
    {action : Action σ}
    (hreveal : ∀ first id, x.moves fs action = first ++ [.settle id] →
      let mid := first.foldl TreeView.act x.tree
      ∀ above node, mid.arena.Under above id → above ≠ id → mid.arena.get? above = some node →
        P node.children node.expandable) :
    ∀ i, (x.act fs action).tree.Flagged P i := by
  refine whileExpanded_act (TreeView.flagged_whileExpanded hP) h hw hopen ?_
  intro first id hmoves mid hmid i hflagged
  exact hflagged.settle hmid fun hu hne node => hreveal first id hmoves i node hu hne

/-- A selection that arrives finds no flag above the selected node that denies it children. -/
def RevealsExpandable (fs : FileSystem σ) (x : Session σ) (action : Action σ) : Prop :=
  ∀ first id, x.moves fs action = first ++ [.settle id] →
    let mid := first.foldl TreeView.act x.tree
    ∀ above node, mid.arena.Under above id → above ≠ id → mid.node? above = some node →
      node.expandable = true

theorem flagsFit_act_iff (h : x.tree.FlagsFit) (hw : x.tree.WellFormed) (hopen : x.tree.RootOpen)
    (action : Action σ) : (x.act fs action).tree.FlagsFit ↔ x.RevealsExpandable fs action := by
  constructor
  · intro hfit first id hmoves mid above node hu hne hlive
    -- Settling expands the node and leaves its flag as it was.
    have heffect := effect_act fs x action
    have hmid : mid.WellFormed := heffect.wellFormed_within hw hmoves
    have htree : (x.act fs action).tree = mid.settle id := by
      rw [heffect.eq_foldl hw, hmoves, List.foldl_append]
      rfl
    obtain ⟨now, hnow, hflags⟩ : ∃ now, (mid.settle id).arena.get? above = some now ∧
        (now.children, now.expandable) = (node.children, node.expandable) := by
      refine Arena.live_of_map_get?_eq ?_ hlive
      exact TreeView.map_get?_expandUpwards (fun _ => rfl) ..
    obtain ⟨hchildren, hflag⟩ := Prod.mk.inj hflags
    have hshown := TreeView.isExpanded_settle hmid hu hne
    rw [Arena.isExpanded_of_live hnow] at hshown
    have hfits := hfit above now (htree ▸ hnow) hshown
    rw [hchildren, hflag] at hfits
    rw [hfits]
    simpa using TreeView.children_ne_nil_of_under hmid hu hne hlive
  · intro hreveal i node hlive hexpanded
    refine flagged_act (P := fun children expandable => expandable = !children.isEmpty)
      (fun _ => rfl) (fun i => h i) hw hopen ?_ i node hlive hexpanded
    intro first id hmoves mid above node hu hne hlive
    have hmid : mid.WellFormed := (effect_act fs x action).wellFormed_within hw hmoves
    simpa [hreveal first id hmoves above node hu hne hlive] using
      TreeView.children_ne_nil_of_under hmid hu hne hlive

theorem rootOpen_start (filter : NameFilter) (volumes : VolumeMap) (world : σ) :
    (start filter volumes world).tree.RootOpen := by
  simp [TreeView.RootOpen, start, TreeView.unbound]

/-- The flags of expanded nodes fit throughout a run exactly if no selection reveals a node whose
last check found nothing; a flag that promises children is right in any case. -/
theorem run_flags_fit_iff (fs : FileSystem σ) (filter : NameFilter) (volumes : VolumeMap)
    (world : σ) (actions : List (Action σ)) :
    let x (n : Nat) := (start filter volumes world).run fs (actions.take n)
    (∀ n id node, (x n).tree.node? id = some node → node.expanded = true →
      node.expandable = true → node.children ≠ []) ∧
    ((∀ n, (x n).tree.FlagsFit) ↔
      ∀ n action, actions[n]? = some action → (x n).RevealsExpandable fs action) := by
  intro x
  have hstart := wellFormed_start filter volumes world
  have hw (n : Nat) : (x n).tree.WellFormed := wellFormed_run hstart fs _
  have hopen (n : Nat) : (x n).tree.RootOpen :=
    rootOpen_run (rootOpen_start filter volumes world) hstart fs _
  refine ⟨fun n id node hlive hexpanded hflag => ?_, fun hfits n action haction => ?_,
    fun hreveal n => ?_⟩
  · suffices hpromised : ∀ i, (x n).tree.Flagged (fun children flag => flag = true → children ≠ [])
        i from hpromised id node hlive hexpanded hflag
    refine forall_run_take fs (motive := fun x => ∀ i, x.tree.Flagged _ i)
      (by simp [TreeView.Flagged, start, TreeView.unbound]) (fun n action _ h => ?_) n
    refine flagged_act (by simp) h (hw n) (hopen n) ?_
    intro first id hmoves mid above node hu hne hlive _
    have hmid : mid.WellFormed := (effect_act fs (x n) action).wellFormed_within (hw n) hmoves
    exact TreeView.children_ne_nil_of_under hmid hu hne hlive
  · have hnext := hfits (n + 1)
    rw [show x (n + 1) = (x n).act fs action from run_take_succ haction ..] at hnext
    exact (flagsFit_act_iff (hfits n) (hw n) (hopen n) action).mp hnext
  · refine forall_run_take fs (motive := fun x => x.tree.FlagsFit)
      (by simp [TreeView.FlagsFit, start, TreeView.unbound, TreeView.node?]) ?_ n
    intro n action haction hfits
    exact (flagsFit_act_iff hfits (hw n) (hopen n) action).mpr (hreveal n action haction)

/-- The directory below the collapsed node has gone, which a check notes; the selection finds the
old child and shows it. -/
theorem selection_reveals_denied_child :
    let before : Scripted := { Scripted.empty with
      listings := [("/a", [.directory "/a/b"]), ("/a/b", [.directory "/a/b/c"]), ("/a/b/c", [])] }
    let after : Scripted := { before with
      listings := [("/a", [.directory "/a/b"]), ("/a/b", []), ("/a/b/c", [])] }
    let x := (start .everything ⟨"/net", [], "", "", [], []⟩ before).run Scripted.fileSystem
      [.operate (.select "/a/b/c" 3), .operate (.select "/a" 1), .operate (.collapse 2),
        .drift after, .operate (.refresh 1 false), .operate (.select "/a/b/c" 3)]
    x.tree.node? 2 =
        some ⟨"/a/b", ⟨"/a/b", "b", none, .real⟩, some 1, [3], true, false, 1⟩ ∧
      ¬ x.tree.FlagsFit := by
  intro before after x
  have hnode : x.tree.node? 2 =
      some ⟨"/a/b", ⟨"/a/b", "b", none, .real⟩, some 1, [3], true, false, 1⟩ := by
    decide +kernel
  exact ⟨hnode, fun hfits => absurd (hfits 2 _ hnode rfl) (by decide)⟩

end Session

end LazyTree
