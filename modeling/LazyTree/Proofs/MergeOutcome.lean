import LazyTree.Proofs.Merge
import LazyTree.Proofs.Siblings

/-!
The whole of what a merge does and reports, in any forest and for any listing, sorted or not, with
or without a path listed twice.
-/
namespace LazyTree

namespace Arena
variable {before : Arena} {parent id child : NodeId} {node : Node} {recursive keepOpen : Bool}
variable {fates : List Fate} {merged : Merged} {incoming : List Handle}

theorem counts_carryOut (parent : NodeId) (recursive : Bool) (before : Arena) (fates : List Fate) :
    let outcome := (carryOut parent recursive before fates).outcome
    outcome.inserted + outcome.retained = (fates.filterMap Fate.listed?).length ∧
      outcome.retained + outcome.removed = (fates.filterMap Fate.child?).length ∧
      outcome.retained = (fates.filterMap Fate.place?).countP Option.isSome := by
  induction fates generalizing before with
  | nil => exact ⟨rfl, rfl, rfl⟩
  | cons fate fates ih =>
    cases fate with
    | added listed =>
      obtain ⟨hlisted, hchildren, hplaces⟩ := ih (before.insert listed (some parent)).1
      refine ⟨?_, hchildren, hplaces⟩
      exact (Nat.add_right_comm _ 1 _).trans (congrArg Nat.succ hlisted)
    | kept child listed =>
      obtain ⟨hlisted, hchildren, hplaces⟩ := ih (before.setHandle child listed)
      refine ⟨congrArg Nat.succ hlisted, ?_, ?_⟩
      · exact (Nat.add_right_comm _ 1 _).trans (congrArg Nat.succ hchildren)
      · exact (congrArg Nat.succ hplaces).trans (List.countP_cons_of_pos rfl).symm
    | dropped child =>
      obtain ⟨hlisted, hchildren, hplaces⟩ := ih (before.detach child).1
      exact ⟨hlisted, congrArg Nat.succ hchildren, hplaces⟩

/-- `after` is `before` with the listing `incoming` merged into `parent`, as `outcome` reports. -/
structure Converged (before after : Arena) (parent : NodeId) (node : Node) (incoming : List Handle)
    (recursive keepOpen : Bool) (outcome : MergeOutcome) : Prop where
  forest : after.Forest
  self : after.get? parent = some { node with
    children := after.childrenOf parent
    expandable := !incoming.isEmpty
    expanded := node.expanded && (!incoming.isEmpty || keepOpen) }
  handles : (after.childrenOf parent).map after.handle? = incoming.map some
  inserted : outcome.inserted + outcome.retained = incoming.length
  removed : outcome.retained + outcome.removed = node.children.length
  retained : outcome.retained = (after.childrenOf parent).countP before.contains
  /-- A child is new, collapsed and empty, or it was a child before and has changed its handle for
  one of the same path. -/
  child : ∀ child ∈ after.childrenOf parent,
    (before.nextId ≤ child ∧
      ∃ listed, after.get? child = some (Node.fresh listed (some parent))) ∨
    child ∈ node.children ∧ ∃ was listed, before.get? child = some was ∧
      listed.path = was.handle.path ∧ after.get? child = some { was with handle := listed }
  gone_iff : ∀ id was, before.get? id = some was → (after.get? id = none ↔
    ∃ child ∈ node.children, child ∉ after.childrenOf parent ∧ before.Reaches child id)
  others : ∀ id, id ≠ parent → id ∉ after.childrenOf parent →
    after.get? id = before.get? id ∨ after.get? id = none
  cascade : outcome.cascade =
    (after.childrenOf parent).filter fun id => recursive && before.isExpanded id

theorem Forest.reaches_emptied_iff (h : before.Forest) (hp : before.get? parent = some node)
    (hc : child ∈ node.children) : (before.emptied parent).Reaches child id ↔
      before.Reaches child id := by
  have hlisted : child ∈ before.childrenOf parent := by rwa [childrenOf_of_live hp]
  have hlive {id : NodeId} {was : Node} (hwas : before.get? id = some was) :
      ∃ now, (before.emptied parent).get? id = some now ∧ now.parent = was.parent :=
    live_of_map_get?_eq (map_get?_emptied (fun _ => rfl) id) hwas
  constructor
  · obtain ⟨_, hchild, _⟩ := h.owned hlisted
    refine h.reaches_of_lists (fun other => ?_) hchild
    by_cases hother : other = parent
    · rw [hother, childrenOf_of_live (get?_emptied_self hp)]
      exact List.nil_sublist _
    · rw [childrenOf_congr (get?_emptied_of_ne hother)]
  · intro hr
    induction hr with
    | self live =>
      obtain ⟨_, hnow, _⟩ := hlive live
      exact .self hnow
    | child above listing listed live ih =>
      obtain ⟨_, hnow, _⟩ := hlive live
      refine .child ih ((get?_emptied_of_ne ?_).trans listing) listed hnow
      rintro rfl
      exact h.no_cycle hlisted above

theorem Carried.dropped_iff
    (h : Carried before parent recursive [] fates merged)
    (hm : merged = carryOut parent recursive before fates)
    (hlive : ∃ node, before.get? child = some node) :
    .dropped child ∈ fates ↔ child ∈ fates.filterMap Fate.child? ∧ child ∉ merged.children := by
  constructor
  · intro hdropped
    refine ⟨mem_of_dropped hdropped [], fun hc => ?_⟩
    obtain ⟨_, hnow, _⟩ := h.loose.owned (List.mem_append_right [] hc)
    obtain ⟨_, hwas⟩ := hlive
    exact Option.some_ne_none _ (hnow.symm.trans (h.gone child child hdropped (.self hwas)))
  · rintro ⟨hc, hnot⟩
    obtain ⟨fate, hfate, hchild⟩ := List.mem_filterMap.mp hc
    cases fate with
    | added listed => simp [Fate.child?] at hchild
    | kept other listed =>
      obtain rfl : other = child := by simpa [Fate.child?] using hchild
      exact absurd (hm ▸ mem_children_carryOut hfate) hnot
    | dropped other =>
      obtain rfl : other = child := by simpa [Fate.child?] using hchild
      exact hfate

section
variable (h : before.Forest) (hp : before.get? parent = some node)
variable (hcarried : Carried (before.emptied parent) parent recursive []
  (Fate.align before.handle? node.children incoming) merged)
variable (hm : merged = carryOut parent recursive (before.emptied parent)
  (Fate.align before.handle? node.children incoming))

include hcarried in
theorem Carried.child_cases (keepOpen : Bool) (hc : child ∈ merged.children) :
    (before.nextId ≤ child ∧ ∃ listed, (merged.rejoined parent keepOpen).get? child =
      some (Node.fresh listed (some parent))) ∨
    child ∈ node.children ∧ ∃ was listed, before.get? child = some was ∧
      listed.path = was.handle.path ∧
      (merged.rejoined parent keepOpen).get? child = some { was with handle := listed } := by
  obtain ⟨listed, _, hplaced⟩ := exists_of_mem_forall₂ (hcarried.placed_rejoined keepOpen) hc
  cases hplaced with
  | added fresh live => exact .inl ⟨fresh, listed, live⟩
  | @kept was fated live now =>
    have hstands := Fate.placement_of_kept fated
    rw [handle?, live] at hstands
    exact .inr ⟨Fate.mem_of_kept fated, was, listed, live, siblingOrder_eq_iff.mp hstands, now⟩

include h hp hcarried hm in
theorem Carried.retained_eq :
    merged.outcome.retained = merged.children.countP before.contains := by
  have hplaces : merged.children.map (older? before.nextId) =
      (Fate.align before.handle? node.children incoming).filterMap Fate.place? := by
    rw [hm]
    refine map_older?_carryOut (by simp [emptied]) fun child listed hkept => ?_
    have hlisted : child ∈ before.childrenOf parent := by
      rw [childrenOf_of_live hp]
      exact Fate.mem_of_kept hkept
    obtain ⟨_, hlive, _⟩ := h.owned hlisted
    exact (id_bounds hlive).2
  have hcounts := (counts_carryOut parent recursive (before.emptied parent)
    (Fate.align before.handle? node.children incoming)).2.2
  rw [← hm, ← hplaces, List.countP_map] at hcounts
  rw [hcounts]
  refine List.countP_congr fun child hc => ?_
  rw [Function.comp_apply, contains_iff]
  rcases hcarried.child_cases true hc with ⟨fresh, _⟩ | ⟨_, was, _, hwas, _⟩
  · rw [older?_of_le fresh]
    refine iff_of_false Bool.false_ne_true fun hlive => ?_
    obtain ⟨_, hlive⟩ := hlive
    exact Nat.not_lt.mpr fresh (id_bounds hlive).2
  · rw [older?_of_lt (id_bounds hwas).2]
    exact iff_of_true rfl ⟨was, hwas⟩

include h hp hcarried hm in
theorem Carried.gone_iff (keepOpen : Bool) {was : Node} (hwas : before.get? id = some was) :
    (merged.rejoined parent keepOpen).get? id = none ↔
      ∃ child ∈ node.children, child ∉ merged.children ∧ before.Reaches child id := by
  have hdropped {child : NodeId} (hc : child ∈ node.children) :
      .dropped child ∈ Fate.align before.handle? node.children incoming ↔
        child ∉ merged.children := by
    obtain ⟨_, hlive, _⟩ := (h.emptied hp).owned hc
    rw [hcarried.dropped_iff hm ⟨_, hlive⟩, Fate.filterMap_child?_align]
    exact and_iff_right hc
  by_cases hid : id = parent
  · subst hid
    rw [hcarried.get?_rejoined_self hp keepOpen]
    refine iff_of_false (Option.some_ne_none _) fun ⟨child, hc, _, hr⟩ => h.no_cycle ?_ hr
    rwa [childrenOf_of_live hp]
  · rw [get?_rejoined_of_ne hid]
    constructor
    · intro hgone
      have hnot : id ∉ merged.children := fun hc => by
        obtain ⟨_, hlive, _⟩ := hcarried.loose.owned (List.mem_append_right [] hc)
        exact Option.some_ne_none _ (hlive.symm.trans hgone)
      rcases hcarried.frame id hnot with hsame | ⟨_, child, hc, hr⟩
      · rw [get?_emptied_of_ne hid, hgone] at hsame
        exact absurd (hsame.trans hwas) (Option.some_ne_none was).symm
      · have hmem := mem_of_dropped hc []
        rw [List.nil_append, Fate.filterMap_child?_align] at hmem
        exact ⟨child, hmem, (hdropped hmem).mp hc, (h.reaches_emptied_iff hp hmem).mp hr⟩
    · rintro ⟨child, hc, hnot, hr⟩
      exact hcarried.gone child id ((hdropped hc).mpr hnot) ((h.reaches_emptied_iff hp hc).mpr hr)

include h hp hcarried hm in
theorem Carried.converged (keepOpen : Bool) :
    Converged before (merged.rejoined parent keepOpen) parent node incoming recursive keepOpen
      merged.outcome := by
  have hself := hcarried.get?_rejoined_self hp keepOpen
  have hchildren : (merged.rejoined parent keepOpen).childrenOf parent = merged.children := by
    rw [childrenOf_of_live hself]
    rfl
  have hplaced := hcarried.placed_rejoined keepOpen
  rw [Fate.filterMap_listed?_align] at hplaced
  have hempty : merged.children.isEmpty = incoming.isEmpty := by
    rw [Bool.eq_iff_iff, List.isEmpty_iff_length_eq_zero, List.isEmpty_iff_length_eq_zero,
      hplaced.length_eq]
  obtain ⟨hinserted, hremoved, _⟩ := counts_carryOut parent recursive (before.emptied parent)
    (Fate.align before.handle? node.children incoming)
  rw [← hm, Fate.filterMap_listed?_align] at hinserted
  rw [← hm, Fate.filterMap_child?_align] at hremoved
  constructor
  case forest =>
    refine hcarried.loose.rejoin (map_get?_modify fun _ => by rfl) hchildren fun id hne => ?_
    exact childrenOf_congr (get?_rejoined_of_ne hne merged keepOpen)
  case self => rw [hself, hchildren, Node.relisted, hempty]
  case handles =>
    rw [hchildren]
    exact map_handle?_of_placed hplaced
  case inserted => exact hinserted
  case removed => exact hremoved
  case retained =>
    rw [hchildren]
    exact hcarried.retained_eq h hp hm
  case child => exact fun child hc => hcarried.child_cases keepOpen (hchildren ▸ hc)
  case gone_iff =>
    intro id was hwas
    rw [hchildren]
    exact hcarried.gone_iff h hp hm keepOpen hwas
  case others =>
    intro id hne hnot
    rw [hchildren] at hnot
    rw [get?_rejoined_of_ne hne]
    exact (hcarried.frame id hnot).imp (·.trans (get?_emptied_of_ne hne)) And.left
  case cascade =>
    rw [hchildren]
    exact hcarried.cascade_from fun id _ => isExpanded_congr (map_get?_emptied (fun _ => rfl) id)

end

/-- Merging any listing into a live node of a forest succeeds, and makes the node's children those
listed, in their order. -/
theorem mergeListing_converges (h : before.Forest) (hp : before.get? parent = some node)
    (incoming : List Handle) (recursive keepOpen : Bool) :
    ∃ outcome after,
      before.mergeListing parent incoming recursive keepOpen = (.ok outcome, after) ∧
      Converged before after parent node incoming recursive keepOpen outcome := by
  obtain ⟨merged, hm, hcarried, heq⟩ := mergeListing_eq h hp incoming recursive keepOpen
  exact ⟨_, _, heq, hcarried.converged h hp hm keepOpen⟩

/-- An arena in which an open child is older than its parent. -/
def crossed : Arena :=
  ⟨#[some { Node.fresh (.real "/a/b") (some 2) with expanded := true },
    some { Node.fresh (.real "/a") none with children := [1], expanded := true }]⟩

theorem crossed_forest : crossed.Forest := by
  refine @forest_of_single _ 2 (fun id hne => ?_) (by decide) (by decide)
  match id with
  | 0 => rfl
  | 1 => rfl
  | 2 => exact absurd rfl hne
  | _ + 3 => rfl

/-- A listing out of order that names the child twice. -/
theorem crossed_converges :
    crossed.Forest ∧ ∃ outcome after,
      crossed.mergeListing 2 [.real "/a/b", .real "/a/c", .real "/a/b"] true false =
        (.ok outcome, after) ∧
      Converged crossed after 2
        { Node.fresh (.real "/a") none with children := [1], expanded := true }
        [.real "/a/b", .real "/a/c", .real "/a/b"] true false outcome :=
  ⟨crossed_forest, mergeListing_converges crossed_forest rfl
    [.real "/a/b", .real "/a/c", .real "/a/b"] true false⟩

end Arena

end LazyTree
