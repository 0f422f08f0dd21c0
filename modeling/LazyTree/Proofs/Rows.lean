import LazyTree.Proofs.Failures
import LazyTree.Proofs.Sifted
import LazyTree.Proofs.Structure

/-!
Which nodes have a row: those with nothing but open nodes above them, and in full all that are live.
-/
namespace LazyTree.TreeView
variable {tree : TreeView} {inFull isLast : Bool} {levels depth : Nat} {id i mid child : NodeId}
variable {node : Node} {above : List NodeId}

/-- All nodes from `top` down to a node, but for the node itself, are open or shown in full. -/
def OpenDown (tree : TreeView) (inFull : Bool) (top id : NodeId) : Prop :=
  ∀ mid, tree.arena.Under top mid → tree.arena.Under mid id → mid ≠ id →
    tree.arena.isExpanded mid = true ∨ inFull = true

theorem openDown_self (hw : tree.WellFormed) (inFull : Bool) (id : NodeId) :
    tree.OpenDown inFull id id := fun _ hdown hup hne =>
  absurd (hw.linked.under_antisymm hup hdown) hne

theorem openDown_child (hw : tree.WellFormed) (hlive : tree.arena.get? id = some node)
    (hc : child ∈ node.children) (hu : tree.arena.Under child i) :
    tree.OpenDown inFull id i ↔ (node.expanded = true ∨ inFull = true) ∧
      tree.OpenDown inFull child i := by
  have hlisted : child ∈ tree.arena.childrenOf id := by rwa [Arena.childrenOf_of_live hlive]
  have hlt : id < child := hw.linked.lower hlisted
  have hbelow : tree.arena.Under id child := hw.linked.under_of_listed hlisted (.self hlive)
  constructor
  · refine fun h => ⟨?_, fun mid hdown => h mid (hdown.trans hbelow)⟩
    rw [← Arena.isExpanded_of_live hlive]
    refine h id (.self hlive) (hu.trans hbelow) (Nat.ne_of_lt ?_)
    exact Nat.lt_of_lt_of_le hlt (hw.linked.le_of_under hu)
  · rintro ⟨hopen, h⟩ mid hdown hup hne
    rcases hu.comparable hup with hmid | hmid
    · exact h mid hmid hup hne
    · rcases (hw.linked.under_listed_iff hlisted).mp hmid with rfl | hmid
      · exact h child (.self (hw.linked.owned hlisted).choose_spec.1) hup hne
      · have heq := hw.linked.under_antisymm hdown hmid
        rw [← heq, Arena.isExpanded_of_live hlive]
        exact hopen

theorem mem_rowsFrom_iff (hw : tree.WellFormed) (hlive : tree.arena.get? id = some node)
    (habove : tree.arena.Passed above id) (hsize : tree.size ≤ levels + above.length) :
    i ∈ (tree.rowsFrom inFull levels depth id isLast).map Row.id ↔
      tree.arena.Under id i ∧ tree.OpenDown inFull id i := by
  induction levels generalizing above id node depth isLast with
  | zero =>
    rw [Nat.zero_add] at hsize
    exact absurd (habove.length_lt hlive) (Nat.not_lt.mpr hsize)
  | succ levels ih =>
    have hbelow {marked : NodeId × Bool} (hmarked : marked ∈ markLast node.children) :
        i ∈ (tree.rowsFrom inFull levels (depth + 1) marked.1 marked.2).map Row.id ↔
          tree.arena.Under marked.1 i ∧ tree.OpenDown inFull marked.1 i := by
      obtain ⟨childNode, hchild, hup⟩ := hw.linked.child_live hlive (mem_of_mem_markLast hmarked)
      refine ih hchild (habove.cons hlive (hw.linked.parent_lt hchild hup)) ?_
      rw [List.length_cons]
      omega
    rw [rowsFrom, node?, hlive]
    simp only [List.map_cons, List.mem_cons]
    constructor
    · rintro (rfl | hi)
      · exact ⟨.self hlive, openDown_self hw inFull i⟩
      · split at hi
        · rename_i hopen
          obtain ⟨row, hrow, rfl⟩ := List.mem_map.mp hi
          obtain ⟨marked, hmarked, hrow⟩ := List.mem_flatMap.mp hrow
          have hc := mem_of_mem_markLast hmarked
          obtain ⟨hu, hdown⟩ := (hbelow hmarked).mp (List.mem_map_of_mem hrow)
          refine ⟨hu.trans ?_, (openDown_child hw hlive hc hu).mpr ⟨?_, hdown⟩⟩
          · obtain ⟨_, hchild, hup⟩ := hw.linked.child_live hlive hc
            exact .step hchild hup (.self hlive)
          · simpa only [Bool.or_eq_true] using hopen
        · simp at hi
    · rintro ⟨hu, hdown⟩
      by_cases heq : i = id
      · exact .inl heq
      · obtain ⟨child, hc, hunder⟩ := hw.linked.lists_below hu heq
        rw [Arena.childrenOf_of_live hlive] at hc
        obtain ⟨hopen, hrest⟩ := (openDown_child hw hlive hc hunder).mp hdown
        rw [← map_fst_markLast node.children] at hc
        obtain ⟨marked, hmarked, rfl⟩ := List.mem_map.mp hc
        obtain ⟨row, hrow, hid⟩ := List.mem_map.mp ((hbelow hmarked).mpr ⟨hunder, hrest⟩)
        refine .inr (List.mem_map.mpr ⟨row, ?_, hid⟩)
        rw [if_pos (by simpa only [Bool.or_eq_true] using hopen)]
        exact List.mem_flatMap.mpr ⟨marked, hmarked, hrow⟩

/-- Everything above the node is open. -/
def OpenAbove (tree : TreeView) (id : NodeId) : Prop :=
  ∀ above, tree.arena.Reaches above id → above ≠ id → tree.arena.isExpanded above = true

theorem mem_rows_iff (hw : tree.WellFormed) :
    id ∈ (tree.rows inFull).map Row.id ↔
      (∃ node, tree.node? id = some node) ∧ (tree.OpenAbove id ∨ inFull = true) := by
  unfold rows
  cases hroot : tree.root with
  | none =>
    have hdead : tree.node? id = none := Arena.isEmpty_iff.mp (hw.nothing_without_root hroot).2 id
    simp [hdead]
  | some root =>
    obtain ⟨top, htop, _⟩ := hw.root_live hroot
    have hunder {mid : NodeId} : tree.arena.Under mid id ↔ tree.arena.Reaches mid id :=
      (hw.linked.reaches_iff_under fun _ _ => rfl).symm
    have hlevels : tree.size ≤ tree.size + ([] : List NodeId).length := Nat.le_refl _
    dsimp only
    rw [mem_rowsFrom_iff hw htop (.nil _ root) hlevels, hunder, hw.reaches_iff_live hroot]
    refine and_congr_right fun _ => ?_
    cases inFull with
    | true => simp [OpenDown]
    | false =>
      simp only [OpenDown, OpenAbove, hunder, Bool.false_eq_true, or_false]
      refine forall_congr' fun mid => ⟨fun h hup => h ?_ hup, fun h _ => h⟩
      obtain ⟨midNode, hmid⟩ := (hunder.mpr hup).top_live
      obtain ⟨root', hroot', habove⟩ := hw.under_root hmid
      exact Option.some.inj (hroot.symm.trans hroot') ▸ habove

end LazyTree.TreeView
