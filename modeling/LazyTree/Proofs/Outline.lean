import LazyTree.Proofs.Preorder

/-!
The drawing of a tree is the outline that is drawn from the root down, where each node hands the
rails in front of it on to its children. The drawing itself knows nothing but rows, and looks back
from each row for the rails. What it finds at a level is the node above the row at that level, since
rows are in preorder.
-/
namespace LazyTree

namespace Branch

mutual

/-- The lines of a branch below the top, the given rails in front of each. -/
def outline (selected : Option NodeId) (rails : String) (isLast : Bool) : Branch → String
  | .mk id _ label _ expanded _ children =>
    rails ++ (if isLast then "└── " else "├── ") ++ label ++
      (if selected = some id then " *" else "") ++ "\n" ++
      if expanded then outlineAll selected (rails ++ if isLast then "   " else "│  ") children
      else ""

def outlineAll (selected : Option NodeId) (rails : String) : List Branch → String
  | [] => ""
  | branch :: branches =>
    outline selected rails branches.isEmpty branch ++ outlineAll selected rails branches

end

/-- The lines of a whole tree. There is nothing in front of its first line. -/
def outlineTop (selected : Option NodeId) : Branch → String
  | .mk id _ label _ expanded _ children =>
    label ++ (if selected = some id then " *" else "") ++ "\n" ++
      if expanded then outlineAll selected "" children else ""

end Branch

section
variable {above nearer rows later : List Row} {row ancestor : Row} {depth level : Nat}

theorem drawRows_append (above rows later : List Row) :
    drawRows above (rows ++ later) =
      drawRows above rows ++ drawRows (rows.reverse ++ above) later := by
  induction rows generalizing above with
  | nil => simp [drawRows]
  | cons row rows ih => simp [drawRows, ih, String.append_assoc]

theorem endsAtDepth_skip (h : ∀ row ∈ nearer, depth < row.depth) (above : List Row) :
    endsAtDepth depth (nearer ++ above) = endsAtDepth depth above := by
  induction nearer with
  | nil => rfl
  | cons row nearer ih =>
    have hdeeper := h row List.mem_cons_self
    rw [List.cons_append, endsAtDepth, if_neg (by omega), if_neg (by omega)]
    exact ih fun other hother => h other (List.mem_cons_of_mem _ hother)

/-- The rails in front of a row at a depth, as they are found in the rows above it. -/
def railsAt (above : List Row) (depth : Nat) : String :=
  String.join ((List.range' 1 (depth - 1)).map (railCell above))

theorem connector_space (isLast : Bool) :
    connector isLast ++ " " = if isLast then "└── " else "├── " := by
  cases isLast <;> decide

theorem rowText_eq (above : List Row) (h : 0 < row.depth) :
    rowText above row =
      railsAt above row.depth ++ (if row.isLast then "└── " else "├── ") ++ row.label ++
        (if row.isSelected then " *" else "") ++ "\n" := by
  rw [rowText, rowLead, if_neg (Nat.ne_of_gt h), ← railsAt, ← connector_space]
  simp only [String.append_assoc]

theorem railsAt_skip (h : ∀ row ∈ nearer, depth ≤ row.depth) (above : List Row) :
    railsAt (nearer ++ above) depth = railsAt above depth := by
  refine congrArg String.join (List.map_congr_left fun level hlevel => ?_)
  have hbounds := List.mem_range'_1.mp hlevel
  have hskip : endsAtDepth level (nearer ++ above) = endsAtDepth level above :=
    endsAtDepth_skip (fun row hrow => by have := h row hrow; omega) above
  rw [railCell, railCell, hskip]

theorem railsAt_below (above : List Row) (h : 0 < row.depth) :
    railsAt (row :: above) (row.depth + 1) =
      railsAt above row.depth ++ if row.isLast then "   " else "│  " := by
  obtain ⟨depth, hdepth⟩ := Nat.exists_eq_succ_of_ne_zero (Nat.ne_of_gt h)
  have hown : railCell (row :: above) (1 + depth) = if row.isLast then "   " else "│  " := by
    have hfound : endsAtDepth (1 + depth) (row :: above) = row.isLast := by
      rw [endsAtDepth, if_pos (by omega)]
    rw [railCell, hfound]
  have hrest : railsAt (row :: above) row.depth = railsAt above row.depth := by
    refine @railsAt_skip [row] row.depth (fun other hother => ?_) above
    rw [List.mem_singleton.mp hother]
  rw [railsAt, hdepth] at hrest ⊢
  simp only [Nat.succ_eq_add_one, Nat.add_sub_cancel, List.range'_1_concat, List.map_append,
    List.map_cons, List.map_nil, hown] at hrest ⊢
  rw [← hrest]
  simp [String.join]

end

namespace Branch

mutual

theorem depth_le_rows {inFull : Bool} {selected : Option NodeId} {depth : Nat} {isLast : Bool}
    (branch : Branch) : ∀ row ∈ branch.rows inFull selected depth isLast, depth ≤ row.depth := by
  cases branch with
  | mk id path label kind expanded expandable children =>
    intro row hrow
    rw [rows] at hrow
    cases List.mem_cons.mp hrow with
    | inl heq => exact Nat.le_of_eq (congrArg Row.depth heq).symm
    | inr hbelow =>
      split at hbelow
      · exact Nat.le_of_succ_le (depth_le_rowsAll children row hbelow)
      · cases hbelow

theorem depth_le_rowsAll {inFull : Bool} {selected : Option NodeId} {depth : Nat}
    (branches : List Branch) :
    ∀ row ∈ rowsAll inFull selected depth branches, depth ≤ row.depth := by
  cases branches with
  | nil =>
    intro row hrow
    cases hrow
  | cons branch branches =>
    intro row hrow
    rw [rowsAll] at hrow
    cases List.mem_append.mp hrow with
    | inl hfirst => exact depth_le_rows branch row hfirst
    | inr hrest => exact depth_le_rowsAll branches row hrest

end

mutual

theorem drawRows_rows (selected : Option NodeId) (above : List Row) (depth : Nat) (isLast : Bool)
    (branch : Branch) :
    drawRows above (branch.rows false selected (depth + 1) isLast) =
      branch.outline selected (railsAt above (depth + 1)) isLast := by
  cases branch with
  | mk id path label kind expanded expandable children =>
    obtain ⟨row, hrow⟩ : ∃ row : Row,
      row = ⟨id, label, depth + 1, expanded, isLast, selected = some id⟩ := ⟨_, rfl⟩
    have hdepth : row.depth = depth + 1 := congrArg Row.depth hrow
    have htext := rowText_eq above (Nat.lt_of_lt_of_eq (Nat.succ_pos depth) hdepth.symm)
    have hrails := railsAt_below above (Nat.lt_of_lt_of_eq (Nat.succ_pos depth) hdepth.symm)
    have hbelow := drawRows_rowsAll selected (row :: above) (depth + 1) children
    rw [← hdepth, hrails] at hbelow
    rw [rows, drawRows, outline, ← hrow, htext]
    subst hrow
    dsimp only at hbelow ⊢
    cases expanded with
    | false => simp [drawRows]
    | true => simp [hbelow]

/-- The rows of one sibling lie deeper than the rails of the next. -/
theorem drawRows_rowsAll (selected : Option NodeId) (above : List Row) (depth : Nat)
    (branches : List Branch) :
    drawRows above (rowsAll false selected (depth + 1) branches) =
      outlineAll selected (railsAt above (depth + 1)) branches := by
  cases branches with
  | nil => rfl
  | cons branch branches =>
    rw [rowsAll, outlineAll, drawRows_append, drawRows_rows, drawRows_rowsAll, railsAt_skip]
    intro row hrow
    exact depth_le_rows branch row (List.mem_reverse.mp hrow)

end

theorem drawRows_top (selected : Option NodeId) (branch : Branch) :
    drawRows [] (branch.rows false selected 0 true) = branch.outlineTop selected := by
  cases branch with
  | mk id path label kind expanded expandable children =>
    rw [rows, drawRows, outlineTop, rowText, rowLead, if_pos rfl, String.empty_append]
    cases expanded with
    | false => simp [drawRows]
    | true =>
      have hbelow := drawRows_rowsAll selected [⟨id, label, 0, true, true, selected = some id⟩] 0
        children
      have hnone : railsAt [⟨id, label, 0, true, true, selected = some id⟩] 1 = "" := rfl
      rw [hnone] at hbelow
      simp [hbelow]

end Branch

/-- The search for the rail of a level ends at the first row that lies no deeper. -/
theorem endsAtDepth_of_find? {above : List Row} {ancestor : Row} {level : Nat}
    (h : above.find? (·.depth ≤ level) = some ancestor) (hlevel : ancestor.depth = level) :
    endsAtDepth level above = ancestor.isLast := by
  induction above with
  | nil => cases h
  | cons row above ih =>
    by_cases hrow : row.depth ≤ level
    · rw [List.find?_cons_of_pos (by simpa using hrow)] at h
      obtain rfl := Option.some.inj h
      rw [endsAtDepth, if_pos hlevel]
    · rw [List.find?_cons_of_neg (by simpa using hrow)] at h
      rw [endsAtDepth, if_neg (by omega), if_neg (by omega)]
      exact ih h

namespace TreeView
variable {tree : TreeView} {rows later : List Row} {row head : Row} {base : Nat} {inFull : Bool}

/-- Before each row the nearest one that lies no deeper than a level, from `base` up to its own, is
the row of the node above it at that level. -/
def Nested (tree : TreeView) (base : Nat) (rows : List Row) : Prop :=
  ∀ before row after level, rows = before ++ row :: after → base ≤ level → level < row.depth →
    ∃ ancestor, before.reverse.find? (·.depth ≤ level) = some ancestor ∧ ancestor.depth = level ∧
      tree.arena.Under ancestor.id row.id

namespace Nested

theorem nil (tree : TreeView) (base : Nat) : tree.Nested base [] := by
  intro before row after level hsplit
  simp at hsplit

theorem append (h : tree.Nested base rows) (h' : tree.Nested base later) :
    tree.Nested base (rows ++ later) := by
  intro before row after level hsplit hbase hlevel
  cases List.append_eq_append_iff.mp hsplit with
  | inl hlater =>
    obtain ⟨done, rfl, hdone⟩ := hlater
    obtain ⟨ancestor, hfind, hrest⟩ := h' done row after level hdone hbase hlevel
    exact ⟨ancestor, by simp [hfind], hrest⟩
  | inr hrows =>
    obtain ⟨rest, rfl, hrest⟩ := hrows
    cases rest with
    | nil =>
      obtain ⟨ancestor, hfind, hfound⟩ := h' [] row after level hrest.symm hbase hlevel
      simp at hfind
    | cons first rest =>
      obtain ⟨rfl, _⟩ := List.cons.inj hrest
      exact h before row rest level rfl hbase hlevel

theorem flatMap {α : Type} {items : List α} {rowsOf : α → List Row}
    (h : ∀ item ∈ items, tree.Nested base (rowsOf item)) :
    tree.Nested base (items.flatMap rowsOf) := by
  induction items with
  | nil => exact nil tree base
  | cons item items ih =>
    rw [List.flatMap_cons]
    exact (h item List.mem_cons_self).append
      (ih fun other hother => h other (List.mem_cons_of_mem _ hother))

theorem cons (hhead : head.depth = base) (h : tree.Nested (base + 1) rows)
    (hbelow : ∀ row ∈ rows, base < row.depth ∧ tree.arena.Under head.id row.id) :
    tree.Nested base (head :: rows) := by
  intro before row after level hsplit hbase hlevel
  cases before with
  | nil =>
    obtain ⟨rfl, _⟩ := List.cons.inj hsplit
    omega
  | cons first before =>
    obtain ⟨rfl, rfl⟩ := List.cons.inj hsplit
    rw [List.reverse_cons, List.find?_append]
    -- At the level of the head every row behind it is passed over; deeper down they decide alone.
    by_cases heq : level = base
    · have hnone : before.reverse.find? (·.depth ≤ level) = none := by
        refine List.find?_eq_none.mpr fun other hother => ?_
        have hdeeper := hbelow other (by simp [List.mem_reverse.mp hother])
        simpa [heq] using hdeeper.1
      refine ⟨head, ?_, hhead.trans heq.symm, (hbelow row (by simp)).2⟩
      rw [hnone, Option.none_or, List.find?_cons_of_pos (by simp [hhead, heq])]
    · obtain ⟨ancestor, hfind, hfound⟩ := h before row after level rfl (by omega) hlevel
      exact ⟨ancestor, by rw [hfind, Option.some_or], hfound⟩

end Nested

theorem below_of_children (hl : tree.arena.Linked) {id : NodeId} {node : Node}
    (hlive : tree.node? id = some node) {rowsOf : NodeId × Bool → List Row}
    (hchild : ∀ marked, ∀ row ∈ rowsOf marked, base + 1 ≤ row.depth ∧
      tree.arena.Under marked.1 row.id) (inFull : Bool) :
    ∀ row ∈ if node.expanded || inFull then (markLast node.children).flatMap rowsOf else [],
      base < row.depth ∧ tree.arena.Under id row.id := by
  intro row hrow
  split at hrow
  · obtain ⟨marked, hmarked, hrow⟩ := List.mem_flatMap.mp hrow
    obtain ⟨hdepth, hunder⟩ := hchild marked row hrow
    obtain ⟨_, hlisted, hup⟩ := hl.child_live hlive (mem_of_mem_markLast hmarked)
    exact ⟨hdepth, hunder.trans (.step hlisted hup (.self hlive))⟩
  · cases hrow

theorem below_rowsFrom (hl : tree.arena.Linked) (inFull : Bool) (levels depth : Nat) (id : NodeId)
    (isLast : Bool) : ∀ row ∈ tree.rowsFrom inFull levels depth id isLast,
      depth ≤ row.depth ∧ tree.arena.Under id row.id := by
  induction levels generalizing depth id isLast with
  | zero =>
    intro row hrow
    cases hrow
  | succ levels ih =>
    rw [rowsFrom]
    intro row hrow
    cases hlive : tree.node? id with
    | none =>
      rw [hlive] at hrow
      cases hrow
    | some node =>
      rw [hlive] at hrow
      cases List.mem_cons.mp hrow with
      | inl heq =>
        rw [heq]
        exact ⟨Nat.le_refl depth, .self hlive⟩
      | inr hbelow =>
        obtain ⟨hdepth, hunder⟩ := below_of_children hl hlive
          (fun marked => ih (depth + 1) marked.1 marked.2) inFull row hbelow
        exact ⟨Nat.le_of_lt hdepth, hunder⟩

theorem nested_rowsFrom (hl : tree.arena.Linked) (inFull : Bool) (levels depth : Nat) (id : NodeId)
    (isLast : Bool) : tree.Nested depth (tree.rowsFrom inFull levels depth id isLast) := by
  induction levels generalizing depth id isLast with
  | zero => exact .nil tree depth
  | succ levels ih =>
    rw [rowsFrom]
    cases hlive : tree.node? id with
    | none => exact .nil tree depth
    | some node =>
      refine .cons rfl ?_ (below_of_children hl hlive
        (fun marked => below_rowsFrom hl inFull levels (depth + 1) marked.1 marked.2) inFull)
      split
      · exact .flatMap fun marked _ => ih (depth + 1) marked.1 marked.2
      · exact .nil tree (depth + 1)

theorem nested_rows (hl : tree.arena.Linked) (inFull : Bool) :
    tree.Nested 0 (tree.rows inFull) := by
  unfold rows
  cases tree.root with
  | none => exact .nil tree 0
  | some root => exact nested_rowsFrom hl inFull tree.size 0 root true

end TreeView

namespace Session
variable {σ : Type}

/-- In every session the drawing is the outline of what is shown, and the row that the search for a
rail ends at, among the rows above a row, is the one of the node above it at the level. -/
theorem run_draws_outline (fs : FileSystem σ) (filter : NameFilter) (volumes : VolumeMap)
    (world : σ) (actions : List (Action σ)) :
    let x := (start filter volumes world).run fs actions
    x.tree.draw = (x.tree.snapshot.root.map (Branch.outlineTop x.tree.selected)).getD "" ∧
    ∀ above row below level, x.tree.rows false = above.reverse ++ row :: below →
      level < row.depth →
      ∃ ancestor, above.find? (·.depth ≤ level) = some ancestor ∧ ancestor.depth = level ∧
        x.tree.arena.Reaches ancestor.id row.id ∧ x.tree.Describes ancestor ∧
        endsAtDepth level above = ancestor.isLast := by
  intro x
  have hw : x.tree.WellFormed := wellFormed_run (wellFormed_start filter volumes world) fs actions
  refine ⟨?_, fun above row below level hrows hlevel => ?_⟩
  · rw [TreeView.draw, TreeView.rows_eq hw.linked]
    cases x.tree.snapshot.root with
    | none => rfl
    | some branch => exact branch.drawRows_top x.tree.selected
  · have hnested := TreeView.nested_rows hw.linked false
    obtain ⟨ancestor, hfind, hdepth, hunder⟩ :=
      hnested above.reverse row below level hrows (Nat.zero_le _) hlevel
    rw [List.reverse_reverse] at hfind
    have hmem : ancestor ∈ x.tree.rows false := by
      rw [hrows]
      exact List.mem_append_left _ (List.mem_reverse.mpr (List.mem_of_find?_eq_some hfind))
    exact ⟨ancestor, hfind, hdepth, (hw.linked.reaches_iff_under fun _ _ => rfl).mpr hunder,
      TreeView.describes_rows hw false ancestor hmem, endsAtDepth_of_find? hfind hdepth⟩

end Session

end LazyTree
