import LazyTree.Proofs.Flags
import LazyTree.Proofs.Sifted

/-!
Nothing is open and empty but the root. A listing that brings no children collapses its node, an
expansion that fails takes itself back, and a selection opens only what lies above the selected
node. So each row that is drawn as open, but for the first, has the row of a child right below it.
-/
namespace LazyTree

/-- Right after each open row below the first level comes a row one level deeper. -/
def RowsFollow (rows : List Row) : Prop :=
  ∀ n row, rows[n]? = some row → row.isExpanded = true → 0 < row.depth →
    ∃ next, rows[n + 1]? = some next ∧ next.depth = row.depth + 1

namespace RowsFollow
variable {row : Row} {rows later : List Row}

theorem nil : RowsFollow [] := by simp [RowsFollow]

theorem cons (hrow : row.isExpanded = true → 0 < row.depth →
      ∃ next rest, rows = next :: rest ∧ next.depth = row.depth + 1)
    (h : RowsFollow rows) : RowsFollow (row :: rows) := by
  intro n first hfirst hexpanded hdepth
  cases n with
  | zero =>
    obtain rfl : row = first := by simpa using hfirst
    obtain ⟨next, rest, rfl, hnext⟩ := hrow hexpanded hdepth
    exact ⟨next, rfl, hnext⟩
  | succ n => exact h n first hfirst hexpanded hdepth

theorem append (h : RowsFollow rows) (h' : RowsFollow later) : RowsFollow (rows ++ later) := by
  intro n row hrow hexpanded hdepth
  by_cases hn : n < rows.length
  · rw [List.getElem?_append_left hn] at hrow
    obtain ⟨next, hnext, hbelow⟩ := h n row hrow hexpanded hdepth
    have hlt : n + 1 < rows.length := (List.getElem?_eq_some_iff.mp hnext).1
    exact ⟨next, (List.getElem?_append_left hlt).trans hnext, hbelow⟩
  · have hle := Nat.le_of_not_lt hn
    rw [List.getElem?_append_right hle] at hrow
    obtain ⟨next, hnext, hbelow⟩ := h' _ row hrow hexpanded hdepth
    refine ⟨next, ?_, hbelow⟩
    rw [List.getElem?_append_right (Nat.le_succ_of_le hle), Nat.succ_sub hle]
    exact hnext

theorem flatMap {α : Type} {f : α → List Row} {items : List α}
    (h : ∀ item ∈ items, RowsFollow (f item)) : RowsFollow (items.flatMap f) := by
  induction items with
  | nil => exact nil
  | cons item items ih =>
    rw [List.flatMap_cons]
    exact (h item List.mem_cons_self).append (ih fun i hi => h i (List.mem_cons_of_mem item hi))

end RowsFollow

namespace TreeView
variable {σ : Type} {fs : FileSystem σ} {tree tree' : TreeView} {target id i : NodeId}
variable {node : Node} {listing : Listing} {children above : List NodeId} {move : Move}

/-- The node has children while it is expanded, or it is the root. -/
def Stocked (tree : TreeView) (id : NodeId) : Prop :=
  ∀ node, tree.node? id = some node → node.expanded = true → tree.root ≠ some id →
    node.children ≠ []

theorem Stocked.of_same (h : tree.Stocked id)
    (hsame : (tree'.arena.get? id).map (fun node => (node.children, node.expanded)) =
      (tree.arena.get? id).map fun node => (node.children, node.expanded))
    (hroot : tree'.root = tree.root) : tree'.Stocked id := by
  intro now hnow hexpanded hne
  obtain ⟨was, hwas, heq⟩ := Arena.live_of_map_get?_eq hsame.symm hnow
  obtain ⟨hchildren, hshown⟩ := Prod.mk.inj heq
  exact hchildren ▸ h was hwas (hshown.trans hexpanded) (hroot ▸ hne)

theorem Applied.stocked (ha : Applied tree tree' target node listing children) :
    tree'.Stocked target := by
  intro now hnow hexpanded hne
  obtain rfl := Option.some.inj (hnow.symm.trans ha.relisted.self)
  rw [ha.same_root] at hne
  intro hempty
  simp only [Node.relisted] at hempty
  simp [Node.relisted, hempty, hne] at hexpanded

theorem Stocked.applied (h : tree.Stocked id)
    (ha : Applied tree tree' target node listing children) : tree'.Stocked id := by
  intro now hnow hexpanded hne
  have hwas : tree.root ≠ some id := ha.same_root ▸ hne
  cases ha.relisted.origin hnow with
  | self eq =>
    subst eq
    exact ha.stocked _ hnow hexpanded hne
  | added _ _ _ => simp [Node.fresh] at hexpanded
  | @kept _ was _ live _ _ => exact h was live hexpanded hwas
  | untouched _ _ live => exact h now live hexpanded hwas

theorem Stocked.act (h : tree.Stocked id) (hw : tree.WellFormed) (hmove : move.still = true) :
    (tree.act move).Stocked id := by
  cases move with
  | issue target recursive =>
    rw [TreeView.act, issue_snd]
    exact h.of_same (map_get?_bumped (fun _ _ => rfl) tree target id) rfl
  | apply ticket fetched =>
    rcases applyFetched_cases hw ticket fetched with hsame | ⟨_, _, _, _, _, _, happlied⟩
    · rwa [TreeView.act, hsame]
    · exact h.applied happlied
  | note target found =>
    rw [TreeView.act, noteExpandable_eq]
    exact h.of_same (Arena.map_get?_modify (fun _ => by rfl) id) rfl
  | useFilter filter => exact h
  | clear => simp [Stocked, TreeView.act, clear, node?]
  | bindTo top =>
    intro now hnow _ hne
    exact absurd (congrArg some (id_bindTo hnow).symm) hne
  | deselect => exact h
  | _ => simp [Move.still] at hmove

theorem stocked_whileExpanded : WhileExpanded Stocked where
  listed ha := ha.stocked
  act hw hmove h := h.act hw hmove
  setExpanded h hnew := by
    intro now hnow hexpanded hne
    rcases Arena.get?_modify_cases hnow with ⟨_, hlive⟩ | ⟨rfl, was, hwas, rfl⟩
    · exact h now hlive hexpanded hne
    · have hshown := hnew hexpanded rfl
      rw [Arena.isExpanded_of_live hwas] at hshown
      exact h was hwas hshown hne
  collapsed tree id := by
    intro now hnow hexpanded _
    rcases Arena.get?_modify_cases hnow with ⟨hne, _⟩ | ⟨_, was, _, rfl⟩
    · exact absurd rfl hne
    · simp at hexpanded

theorem Stocked.settle (h : tree.Stocked i) (hw : tree.WellFormed) (id : NodeId) :
    (tree.settle id).Stocked i := by
  intro now hnow hexpanded hne
  rcases settle_cases hw hnow with hsame | ⟨node, hu, hneq, hlive, rfl⟩
  · exact h now hsame hexpanded hne
  · have hchildren : node.children ≠ [] := children_ne_nil_of_under hw hu hneq hlive
    exact hchildren

theorem markLast_cons {α : Type} (a : α) (rest : List α) :
    ∃ isLast later, markLast (a :: rest) = (a, isLast) :: later := by
  cases rest with
  | nil => exact ⟨true, [], rfl⟩
  | cons b rest => exact ⟨false, markLast (b :: rest), rfl⟩

theorem rowsFrom_head {levels depth : Nat} {isLast : Bool} (hlive : tree.arena.get? id = some node)
    (habove : tree.arena.Passed above id) (hsize : tree.size ≤ levels + above.length) :
    ∃ row rest, tree.rowsFrom false levels depth id isLast = row :: rest ∧ row.depth = depth := by
  cases levels with
  | zero =>
    rw [Nat.zero_add] at hsize
    exact absurd (habove.length_lt hlive) (Nat.not_lt.mpr hsize)
  | succ levels =>
    rw [rowsFrom, node?, hlive]
    exact ⟨_, _, rfl, rfl⟩

theorem rowsFollow_rowsFrom (hw : tree.WellFormed) (hstocked : ∀ i, tree.Stocked i)
    {levels depth : Nat} {isLast : Bool} (habove : tree.arena.Passed above id)
    (hsize : tree.size ≤ levels + above.length) (hdepth : 0 < depth → tree.root ≠ some id) :
    RowsFollow (tree.rowsFrom false levels depth id isLast) := by
  induction levels generalizing above id depth isLast with
  | zero => exact .nil
  | succ levels ih =>
    rw [rowsFrom]
    cases hlive : tree.node? id with
    | none => exact .nil
    | some node =>
      have hbelow {child : NodeId} (hc : child ∈ node.children) :
          tree.arena.Passed (id :: above) child ∧ tree.size ≤ levels + (id :: above).length ∧
            ∃ childNode, tree.arena.get? child = some childNode ∧ tree.root ≠ some child := by
        obtain ⟨childNode, hchild, hup⟩ := hw.linked.child_live hlive hc
        refine ⟨habove.cons hlive (hw.linked.parent_lt hchild hup), ?_, childNode, hchild,
          fun hroot => ?_⟩
        · rw [List.length_cons]
          omega
        · obtain ⟨root, hrootLive, hnone⟩ := hw.root_live hroot
          obtain rfl := Option.some.inj (hchild.symm.trans hrootLive)
          simp [hup] at hnone
      dsimp only
      refine .cons (fun hexpanded hpositive => ?_) ?_
      · obtain ⟨child, rest, hchildren⟩ :=
          List.exists_cons_of_ne_nil (hstocked id node hlive hexpanded (hdepth hpositive))
        obtain ⟨isLast, later, hmarked⟩ := markLast_cons child rest
        obtain ⟨hpassed, hsize', _, hchild, _⟩ := @hbelow child (by simp [hchildren])
        obtain ⟨row, below, hhead, hrow⟩ :=
          @rowsFrom_head tree child _ _ levels (depth + 1) isLast hchild hpassed hsize'
        have hshown : node.expanded = true := hexpanded
        refine ⟨row, below ++ later.flatMap fun item =>
          tree.rowsFrom false levels (depth + 1) item.1 item.2, ?_, hrow⟩
        rw [hshown, Bool.true_or, if_pos rfl, hchildren, hmarked, List.flatMap_cons, hhead,
          List.cons_append]
      · split
        · refine .flatMap fun item hitem => ?_
          obtain ⟨hpassed, hsize', _, _, hroot⟩ := hbelow (mem_of_mem_markLast hitem)
          exact ih hpassed hsize' fun _ => hroot
        · exact .nil

theorem rowsFollow_rows (hw : tree.WellFormed) (hstocked : ∀ i, tree.Stocked i) :
    RowsFollow (tree.rows false) := by
  unfold rows
  cases tree.root with
  | none => exact .nil
  | some root => exact rowsFollow_rowsFrom hw hstocked (.nil _ root) (Nat.le_refl _) (by simp)

end TreeView

namespace Session
variable {σ : Type} {x : Session σ}

theorem stocked_run (h : ∀ i, x.tree.Stocked i) (hw : x.tree.WellFormed) (hopen : x.tree.RootOpen)
    (fs : FileSystem σ) (actions : List (Action σ)) (i : NodeId) :
    (x.run fs actions).tree.Stocked i := by
  induction actions generalizing x with
  | nil => exact h i
  | cons action actions ih =>
    refine ih ?_ ((effect_act fs x action).wellFormed hw) (rootOpen_act hopen hw fs action)
    exact whileExpanded_act TreeView.stocked_whileExpanded h hw hopen
      fun first id _ hmid i hstocked => hstocked.settle hmid id

/-- In every session the root is open and every other open node has children, so that each open row
below the first has the row of a child right below it. -/
theorem run_open_nodes_show (fs : FileSystem σ) (filter : NameFilter) (volumes : VolumeMap)
    (world : σ) (actions : List (Action σ)) :
    let x := (start filter volumes world).run fs actions
    (∀ root, x.tree.root = some root → x.tree.arena.isExpanded root = true) ∧
    (∀ id node, x.tree.node? id = some node → node.expanded = true → x.tree.root ≠ some id →
      node.children ≠ []) ∧
    ∀ n row, (x.tree.rows false)[n]? = some row → row.isExpanded = true → 0 < row.depth →
      ∃ next, (x.tree.rows false)[n + 1]? = some next ∧ next.depth = row.depth + 1 := by
  intro x
  have hstart := wellFormed_start filter volumes world
  have hw : x.tree.WellFormed := wellFormed_run hstart fs actions
  have hopen := rootOpen_start filter volumes world
  have hempty : ∀ i, (start filter volumes world).tree.Stocked i := by
    simp [TreeView.Stocked, start, TreeView.unbound, TreeView.node?]
  have hstocked := stocked_run hempty hstart hopen fs actions
  exact ⟨rootOpen_run hopen hstart fs actions, hstocked, TreeView.rowsFollow_rows hw hstocked⟩

end Session

end LazyTree
