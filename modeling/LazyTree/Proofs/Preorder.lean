import LazyTree.Proofs.Rows
import LazyTree.Proofs.Snapshot
import Mathlib.Data.List.Flatten

/-!
Rows and snapshots show the nodes of a tree in preorder, children in their order: a snapshot and the
rows in full show every live node once, and the rows shown are those with nothing but open nodes
above them. What a row says of its node is what the parent pointers say.
-/
namespace LazyTree

namespace Branch

mutual

def ids : Branch → List NodeId
  | .mk id _ _ _ _ _ children => id :: idsAll children

def idsAll : List Branch → List NodeId
  | [] => []
  | branch :: branches => ids branch ++ idsAll branches

end

mutual

/-- The rows of a branch at a depth; below a collapsed node only in full. -/
def rows (inFull : Bool) (selected : Option NodeId) (depth : Nat) (isLast : Bool) :
    Branch → List Row
  | .mk id _ label _ expanded _ children =>
    ⟨id, label, depth, expanded, isLast, selected = some id⟩ ::
      if expanded || inFull then rowsAll inFull selected (depth + 1) children else []

def rowsAll (inFull : Bool) (selected : Option NodeId) (depth : Nat) : List Branch → List Row
  | [] => []
  | branch :: branches =>
    rows inFull selected depth branches.isEmpty branch ++ rowsAll inFull selected depth branches

end

mutual

theorem map_id_rows (selected : Option NodeId) (depth : Nat) (isLast : Bool) (branch : Branch) :
    (branch.rows true selected depth isLast).map Row.id = branch.ids := by
  cases branch with
  | mk id path label kind expanded expandable children =>
    rw [rows, ids, Bool.or_true, if_pos rfl, List.map_cons, map_id_rowsAll]

theorem map_id_rowsAll (selected : Option NodeId) (depth : Nat) (branches : List Branch) :
    (rowsAll true selected depth branches).map Row.id = idsAll branches := by
  cases branches with
  | nil => rfl
  | cons branch branches =>
    rw [rowsAll, idsAll, List.map_append, map_id_rows, map_id_rowsAll]

end

theorem rowsAll_filterMap {inFull : Bool} {selected : Option NodeId} {depth : Nat}
    {find : NodeId → Option Branch} {children : List NodeId}
    (hfind : ∀ child ∈ children, ∃ branch, find child = some branch) :
    rowsAll inFull selected depth (children.filterMap find) =
      (markLast children).flatMap fun child =>
        ((find child.1).map (rows inFull selected depth child.2)).getD [] := by
  fun_induction markLast children with
  | case1 => rfl
  | case2 child =>
    obtain ⟨branch, hbranch⟩ := hfind child List.mem_cons_self
    simp [hbranch, rowsAll]
  | case3 child next rest ih =>
    obtain ⟨branch, hbranch⟩ := hfind child List.mem_cons_self
    obtain ⟨following, hfollowing⟩ := hfind next (by simp)
    have hrest := ih fun other hother => hfind other (List.mem_cons_of_mem _ hother)
    rw [List.filterMap_cons_some hbranch, rowsAll, hrest, List.flatMap_cons, hbranch]
    simp [hfollowing]

end Branch

namespace TreeView
variable {tree : TreeView} {levels depth : Nat} {id child : NodeId} {node : Node} {isLast : Bool}
variable {above ids ids' out out' : List NodeId} {inFull : Bool} {row : Row}

theorem rowsFrom_eq (hl : tree.arena.Linked) (inFull : Bool) (levels depth : Nat) (id : NodeId)
    (isLast : Bool) :
    tree.rowsFrom inFull levels depth id isLast =
      ((tree.branch? levels id).map (Branch.rows inFull tree.selected depth isLast)).getD [] := by
  induction levels generalizing depth id isLast with
  | zero => rfl
  | succ levels ih =>
    rw [rowsFrom, branch?]
    cases hlive : tree.node? id with
    | none => rfl
    | some node =>
      have hbelow : (markLast node.children).flatMap (fun child =>
            tree.rowsFrom inFull levels (depth + 1) child.1 child.2) =
          Branch.rowsAll inFull tree.selected (depth + 1)
            (node.children.filterMap (tree.branch? levels)) := by
        simp only [ih]
        cases levels with
        | zero => simp [branch?, Branch.rowsAll]
        | succ levels =>
          refine (Branch.rowsAll_filterMap fun child hc => ?_).symm
          obtain ⟨now, hnow, _⟩ := hl.owned (by rwa [Arena.childrenOf_of_live hlive])
          exact ⟨_, by rw [branch?, node?, hnow]⟩
      simp only [hbelow, Option.map_some, Option.getD_some, Branch.rows]

theorem rows_eq (hl : tree.arena.Linked) (inFull : Bool) :
    tree.rows inFull =
      (tree.snapshot.root.map (Branch.rows inFull tree.selected 0 true)).getD [] := by
  unfold rows snapshot
  cases tree.root with
  | none => rfl
  | some root => exact rowsFrom_eq hl inFull tree.size 0 root true

/-- The ids of the nodes of a list and of everything below them: each node before its children, the
children in their order, and one node after the other. -/
inductive Preorder (tree : TreeView) : List NodeId → List NodeId → Prop where
  | nil : Preorder tree [] []
  | cons {id : NodeId} {ids below later : List NodeId} {node : Node}
      (live : tree.node? id = some node) (children : Preorder tree node.children below)
      (rest : Preorder tree ids later) : Preorder tree (id :: ids) (id :: (below ++ later))

namespace Preorder

theorem unique (h : tree.Preorder ids out) (h' : tree.Preorder ids out') : out = out' := by
  induction h generalizing out' with
  | nil =>
    cases h' with
    | nil => rfl
  | cons live _ _ ih ihrest =>
    cases h' with
    | cons live' children' rest' =>
      obtain rfl := Option.some.inj (live.symm.trans live')
      rw [ih children', ihrest rest']

theorem append (h : tree.Preorder [id] out) (h' : tree.Preorder ids out') :
    tree.Preorder (id :: ids) (out ++ out') := by
  cases h with
  | cons live children rest =>
    cases rest with
    | nil =>
      rw [List.append_nil]
      exact .cons live children h'

theorem mem_under (h : tree.Preorder ids out) (hl : tree.arena.Linked) {i : NodeId}
    (hi : i ∈ out) : ∃ top ∈ ids, tree.arena.Under top i := by
  induction h with
  | nil => cases hi
  | @cons id ids below later node live _ _ ih ihrest =>
    cases List.mem_cons.mp hi with
    | inl heq =>
      rw [heq]
      exact ⟨id, List.mem_cons_self, .self live⟩
    | inr hi =>
      cases List.mem_append.mp hi with
      | inl hbelow =>
        obtain ⟨child, hc, hunder⟩ := ih hbelow
        obtain ⟨_, hchild, hup⟩ := hl.owned (by rwa [Arena.childrenOf_of_live live])
        exact ⟨id, List.mem_cons_self, hunder.trans (.step hchild hup (.self live))⟩
      | inr hlater =>
        obtain ⟨top, htop, hunder⟩ := ihrest hlater
        exact ⟨top, List.mem_cons_of_mem _ htop, hunder⟩

end Preorder

/-- Nothing lies below two of the nodes. -/
def Disjoint (tree : TreeView) (ids : List NodeId) : Prop :=
  ids.Pairwise fun a b => ∀ i, tree.arena.Under a i → ¬ tree.arena.Under b i

theorem disjoint_children (hl : tree.arena.Linked) (id : NodeId) :
    tree.Disjoint (tree.children id) := by
  have hnot {a b : NodeId} (ha : a ∈ tree.children id) (hb : b ∈ tree.children id) (hne : a ≠ b) :
      ¬ tree.arena.Under a b := fun hu => by
    cases (hl.under_listed_iff hb).mp hu with
    | inl heq => exact hne heq.symm
    | inr hover => exact absurd (hl.le_of_under hover) (Nat.not_le.mpr (hl.lower ha))
  refine (List.Pairwise.and_mem.mp (hl.once id)).imp fun {a b} hab i hai hbi => ?_
  obtain ⟨ha, hb, hne⟩ := hab
  cases hai.comparable hbi with
  | inl hu => exact hnot ha hb hne hu
  | inr hu => exact hnot hb ha (Ne.symm hne) hu

theorem Preorder.nodup (h : tree.Preorder ids out) (hl : tree.arena.Linked)
    (hdisjoint : tree.Disjoint ids) : out.Nodup := by
  induction h with
  | nil => exact List.nodup_nil
  | @cons id ids below later node live children rest ih ihrest =>
    obtain ⟨hfirst, hrest⟩ := List.pairwise_cons.mp hdisjoint
    have hchildren : tree.children id = node.children := Arena.childrenOf_of_live live
    have hbelow {i : NodeId} (hi : i ∈ below) : i ≠ id ∧ tree.arena.Under id i := by
      obtain ⟨child, hc, hunder⟩ := children.mem_under hl hi
      have hlisted : child ∈ tree.children id := hchildren.symm ▸ hc
      have hlt := Nat.lt_of_lt_of_le (hl.lower hlisted) (hl.le_of_under hunder)
      exact ⟨Nat.ne_of_gt hlt, hunder.trans (hl.under_of_listed hlisted (.self live))⟩
    have hlater {i : NodeId} (hi : i ∈ later) : ¬ tree.arena.Under id i := fun hu => by
      obtain ⟨top, htop, hunder⟩ := rest.mem_under hl hi
      exact hfirst top htop i hu hunder
    -- What follows in the order lies below the node or below a later one, never both.
    refine List.nodup_cons.mpr ⟨fun hmem => ?_, ?_⟩
    · cases List.mem_append.mp hmem with
      | inl hi => exact (hbelow hi).1 rfl
      | inr hi => exact hlater hi (.self live)
    · exact (ih (hchildren ▸ disjoint_children hl id)).append (ihrest hrest)
        fun i hi hi' => hlater hi' (hbelow hi).2

theorem preorder_children {find : NodeId → Option Branch} {children : List NodeId}
    (hfind : ∀ child ∈ children, ∃ branch, find child = some branch ∧
      tree.Preorder [child] branch.ids) :
    tree.Preorder children (Branch.idsAll (children.filterMap find)) := by
  induction children with
  | nil => exact .nil
  | cons child children ih =>
    obtain ⟨branch, hbranch, hfirst⟩ := hfind child List.mem_cons_self
    rw [List.filterMap_cons_some hbranch, Branch.idsAll]
    exact hfirst.append (ih fun other hother => hfind other (List.mem_cons_of_mem _ hother))

/-- With levels enough a branch holds everything below its node. -/
theorem preorder_branch? (hl : tree.arena.Linked) (hlive : tree.node? id = some node)
    (habove : tree.arena.Passed above id) (hsize : tree.size ≤ levels + above.length) :
    ∃ branch, tree.branch? levels id = some branch ∧ tree.Preorder [id] branch.ids := by
  induction levels generalizing above id node with
  | zero =>
    rw [Nat.zero_add] at hsize
    exact absurd (habove.length_lt hlive) (Nat.not_lt.mpr hsize)
  | succ levels ih =>
    have hbelow := @preorder_children tree (tree.branch? levels) node.children fun child hc => by
      have hlisted : child ∈ tree.arena.childrenOf id := by rwa [Arena.childrenOf_of_live hlive]
      obtain ⟨childNode, hchild, _⟩ := hl.owned hlisted
      refine ih hchild (habove.cons hlive (hl.lower hlisted)) ?_
      rw [List.length_cons]
      omega
    rw [branch?, hlive]
    refine ⟨_, rfl, ?_⟩
    have hself := Preorder.cons hlive hbelow .nil
    rwa [List.append_nil] at hself

theorem preorder_snapshot (hw : tree.WellFormed) :
    tree.Preorder tree.root.toList (tree.snapshot.root.toList.flatMap Branch.ids) := by
  unfold snapshot
  cases hroot : tree.root with
  | none => exact .nil
  | some root =>
    obtain ⟨top, hlive, _⟩ := hw.root_live hroot
    have hlevels : tree.size ≤ tree.size + ([] : List NodeId).length := Nat.le_refl _
    obtain ⟨branch, hbranch, hpreorder⟩ := preorder_branch? hw.linked hlive (.nil _ root) hlevels
    rw [Option.bind_some, hbranch]
    simpa using hpreorder

theorem map_id_rows_true (hl : tree.arena.Linked) :
    (tree.rows true).map Row.id = tree.snapshot.root.toList.flatMap Branch.ids := by
  rw [rows_eq hl]
  cases tree.snapshot.root with
  | none => rfl
  | some branch => simp [Branch.map_id_rows]

/-- The nodes above a node, each once. -/
structure Ancestry (tree : TreeView) (above : List NodeId) (id : NodeId) : Prop where
  nodup : above.Nodup
  mem_iff : ∀ i, i ∈ above ↔ tree.arena.Under i id ∧ i ≠ id

theorem Ancestry.root (hw : tree.WellFormed) (hroot : tree.root = some id) :
    tree.Ancestry [] id := by
  refine ⟨List.nodup_nil, fun i => ?_⟩
  simp only [List.not_mem_nil, false_iff, not_and, not_not]
  intro hu
  obtain ⟨node, hlive, hnone⟩ := hw.root_live hroot
  by_contra hne
  obtain ⟨parent, hup, _⟩ := hu.up (Ne.symm hne) hlive
  simp [hup] at hnone

theorem Ancestry.below (h : tree.Ancestry above id) (hl : tree.arena.Linked)
    (hlive : tree.node? id = some node) (hc : child ∈ tree.children id) :
    tree.Ancestry (id :: above) child := by
  have hlt : id < child := hl.lower hc
  refine ⟨List.nodup_cons.mpr ⟨fun hmem => ((h.mem_iff id).mp hmem).2 rfl, h.nodup⟩, fun i => ?_⟩
  rw [List.mem_cons, h.mem_iff, hl.under_listed_iff hc]
  constructor
  · intro hi
    cases hi with
    | inl heq =>
      rw [heq]
      exact ⟨.inr (.self hlive), Nat.ne_of_lt hlt⟩
    | inr hover =>
      have hle := hl.le_of_under hover.1
      exact ⟨.inr hover.1, Nat.ne_of_lt (Nat.lt_of_le_of_lt hle hlt)⟩
  · intro hi
    obtain ⟨hi, hne⟩ := hi
    cases hi with
    | inl heq => exact absurd heq.symm hne
    | inr hu =>
      by_cases heq : i = id
      · exact .inl heq
      · exact .inr ⟨hu, heq⟩

/-- What a row says of its node. -/
structure Describes (tree : TreeView) (row : Row) : Prop where
  shown : ∃ node, tree.node? row.id = some node ∧ row.label = node.label ∧
    row.isExpanded = node.expanded
  depth : ∃ above, tree.Ancestry above row.id ∧ row.depth = above.length
  isLast : row.isLast = true ↔
    tree.root = some row.id ∨ ∃ parent, (tree.children parent).getLast? = some row.id
  isSelected : row.isSelected = true ↔ tree.selected = some row.id

theorem getLast?_of_mem_markLast {α : Type} {items : List α} (hnodup : items.Nodup)
    {marked : α × Bool} (h : marked ∈ markLast items) :
    marked.2 = true ↔ items.getLast? = some marked.1 := by
  fun_induction markLast items with
  | case1 => cases h
  | case2 a => simp_all
  | case3 a b rest ih =>
    obtain ⟨hnot, hrest⟩ := List.nodup_cons.mp hnodup
    rw [List.getLast?_cons_cons]
    cases List.mem_cons.mp h with
    | inl heq =>
      rw [heq]
      refine iff_of_false (by simp) fun hlast => hnot (List.mem_of_getLast? hlast)
    | inr hmem => exact ih hrest hmem

theorem last_child_iff (hw : tree.WellFormed) (hc : child ∈ tree.children id) :
    (tree.children id).getLast? = some child ↔
      tree.root = some child ∨ ∃ parent, (tree.children parent).getLast? = some child := by
  constructor
  · exact fun hlast => .inr ⟨id, hlast⟩
  · intro hlast
    cases hlast with
    | inl hroot =>
      obtain ⟨top, htop, hnone⟩ := hw.root_live hroot
      obtain ⟨now, hnow, hup⟩ := hw.linked.owned hc
      obtain rfl := Option.some.inj (htop.symm.trans hnow)
      simp [hup] at hnone
    | inr hother =>
      obtain ⟨parent, hparent⟩ := hother
      rwa [hw.linked.same_lister hc (List.mem_of_getLast? hparent)]

theorem describes_rowsFrom (hw : tree.WellFormed) (habove : tree.Ancestry above id)
    (hlast : isLast = true ↔
      tree.root = some id ∨ ∃ parent, (tree.children parent).getLast? = some id) :
    ∀ row ∈ tree.rowsFrom inFull levels above.length id isLast, tree.Describes row := by
  induction levels generalizing above id isLast with
  | zero =>
    intro row hrow
    cases hrow
  | succ levels ih =>
    rw [rowsFrom]
    cases hlive : tree.node? id with
    | none =>
      intro row hrow
      cases hrow
    | some node =>
      have hchildren : tree.children id = node.children := Arena.childrenOf_of_live hlive
      intro row hrow
      cases List.mem_cons.mp hrow with
      | inl heq =>
        rw [heq]
        exact ⟨⟨node, hlive, rfl, rfl⟩, ⟨above, habove, rfl⟩, hlast, by simp⟩
      | inr hbelow =>
        split at hbelow
        · -- Above a child there is the node and what is above the node.
          obtain ⟨marked, hmarked, hrow⟩ := List.mem_flatMap.mp hbelow
          have hc : marked.1 ∈ tree.children id := hchildren ▸ mem_of_mem_markLast hmarked
          refine ih (habove.below hw.linked hlive hc) ?_ row hrow
          rw [← last_child_iff hw hc, hchildren]
          exact getLast?_of_mem_markLast (hchildren ▸ hw.linked.once id) hmarked
        · cases hbelow

theorem describes_rows (hw : tree.WellFormed) (inFull : Bool) :
    ∀ row ∈ tree.rows inFull, tree.Describes row := by
  unfold rows
  cases hroot : tree.root with
  | none =>
    intro row hrow
    cases hrow
  | some root => exact describes_rowsFrom hw (.root hw hroot) (by simp [hroot])

theorem sublist_rowsFrom (levels depth : Nat) (id : NodeId) (isLast : Bool) :
    (tree.rowsFrom false levels depth id isLast).Sublist
      (tree.rowsFrom true levels depth id isLast) := by
  induction levels generalizing depth id isLast with
  | zero => exact .slnil
  | succ levels ih =>
    rw [rowsFrom, rowsFrom]
    cases tree.node? id with
    | none => exact .slnil
    | some node =>
      refine .cons_cons _ ?_
      rw [Bool.or_true, if_pos rfl, Bool.or_false]
      split
      · exact .flatMap_right _ fun child _ => ih (depth + 1) child.1 child.2
      · exact List.nil_sublist _

theorem sublist_rows (tree : TreeView) : (tree.rows false).Sublist (tree.rows true) := by
  unfold rows
  cases tree.root with
  | none => exact .slnil
  | some root => exact sublist_rowsFrom tree.size 0 root true

theorem nodup_map_id_rows (hw : tree.WellFormed) : ((tree.rows true).map Row.id).Nodup := by
  rw [map_id_rows_true hw.linked]
  refine (preorder_snapshot hw).nodup hw.linked ?_
  cases tree.root with
  | none => exact .nil
  | some root => exact List.pairwise_singleton _ root

theorem mem_map_id_rows (hw : tree.WellFormed) :
    id ∈ (tree.rows true).map Row.id ↔ ∃ node, tree.node? id = some node := by
  simp [mem_rows_iff hw]

theorem mem_rows_false_iff (hw : tree.WellFormed) (hrow : row ∈ tree.rows true) :
    row ∈ tree.rows false ↔ tree.OpenAbove row.id := by
  have hlive := (mem_map_id_rows hw).mp (List.mem_map_of_mem hrow)
  constructor
  · intro hshown
    have hopen := (mem_rows_iff hw).mp (List.mem_map_of_mem hshown)
    simpa using hopen.2
  · intro hopen
    obtain ⟨shown, hshown, hid⟩ := List.mem_map.mp ((mem_rows_iff hw).mpr ⟨hlive, .inl hopen⟩)
    have hfull : shown ∈ tree.rows true := tree.sublist_rows.subset hshown
    rwa [← List.inj_on_of_nodup_map (nodup_map_id_rows hw) hfull hrow hid]

theorem length_rows (hw : tree.WellFormed) : (tree.rows true).length = tree.size := by
  rw [← List.length_map Row.id]
  refine Nat.le_antisymm (Arena.length_le_size (nodup_map_id_rows hw) fun id hid => ?_)
    (Arena.size_le_length fun id node hlive => (mem_map_id_rows hw).mpr ⟨node, hlive⟩)
  exact (mem_map_id_rows hw).mp hid

end TreeView

namespace Session
variable {σ : Type}

/-- In every session the rows in full show the nodes in preorder, every live one once, as the
snapshot does, and those of them are shown that have nothing but open nodes above them. Every row
says of its node how many nodes lie above it, whether it is the root or a last child, and whether it
is selected. -/
theorem run_rows_in_preorder (fs : FileSystem σ) (filter : NameFilter) (volumes : VolumeMap)
    (world : σ) (actions : List (Action σ)) :
    let x := (start filter volumes world).run fs actions
    let ids := (x.tree.rows true).map Row.id
    (∀ order, x.tree.Preorder x.tree.root.toList order ↔ order = ids) ∧
    x.tree.snapshot.root.toList.flatMap Branch.ids = ids ∧
    ids.Nodup ∧ (∀ id, id ∈ ids ↔ ∃ node, x.tree.node? id = some node) ∧
    ids.length = x.tree.size ∧
    (x.tree.rows false).Sublist (x.tree.rows true) ∧
    (∀ row ∈ x.tree.rows true, row ∈ x.tree.rows false ↔ x.tree.OpenAbove row.id) ∧
    ∀ inFull, ∀ row ∈ x.tree.rows inFull, x.tree.Describes row := by
  intro x ids
  have hw : x.tree.WellFormed := wellFormed_run (wellFormed_start filter volumes world) fs actions
  have hsnapshot : ids = x.tree.snapshot.root.toList.flatMap Branch.ids :=
    TreeView.map_id_rows_true hw.linked
  have hpreorder : x.tree.Preorder x.tree.root.toList ids :=
    hsnapshot ▸ TreeView.preorder_snapshot hw
  refine ⟨fun order => ⟨fun h => h.unique hpreorder, fun heq => heq ▸ hpreorder⟩, hsnapshot.symm,
    TreeView.nodup_map_id_rows hw, fun id => TreeView.mem_map_id_rows hw, ?_, x.tree.sublist_rows,
    fun row hrow => TreeView.mem_rows_false_iff hw hrow,
    fun inFull => TreeView.describes_rows hw inFull⟩
  rw [List.length_map]
  exact TreeView.length_rows hw

end Session

end LazyTree
