import LazyTree.Proofs.Session

/-!
The shape of every tree that a session can reach, whatever the filesystem answers: all live nodes
hang below the root, each in the child list of its parent and nowhere else. Ids that are gone stay
gone, and a live node keeps its path and its parent.
-/
namespace LazyTree

/-- A child stands where it is listed, and is listed there alone. -/
structure TreeView.Listed (tree : TreeView) (id child : NodeId) : Prop where
  points_back : ∃ node, tree.node? child = some node ∧ node.parent = some id
  larger : id < child
  once : (tree.children id).count child = 1
  nowhere_else : ∀ other, child ∈ tree.children other → other = id
  no_cycle : ¬ tree.arena.Reaches child id

/-- Everything hangs below a root. -/
structure TreeView.RootedAt (tree : TreeView) (root : NodeId) : Prop where
  is_root : tree.root = some root
  top : ∃ node, tree.node? root = some node ∧ node.parent = none
  listed : ∀ id child, child ∈ tree.children id → tree.Listed id child
  by_parent : ∀ id node, tree.node? id = some node → id ≠ root →
    ∃ parent, node.parent = some parent ∧ id ∈ tree.children parent
  reachable : ∀ id, (∃ node, tree.node? id = some node) ↔ tree.arena.Reaches root id
  selection : ∀ id, tree.selected = some id → ∃ node, tree.node? id = some node

namespace TreeView.WellFormed
variable {tree : TreeView} {id root child : NodeId} {node : Node}

theorem under_root (h : tree.WellFormed) (hlive : tree.arena.get? id = some node) :
    ∃ root, tree.root = some root ∧ tree.arena.Under root id := by
  induction id using Nat.strongRecOn generalizing node with
  | _ id ih =>
    cases hp : node.parent with
    | none => exact ⟨id, h.top hlive hp, .self hlive⟩
    | some parent =>
      obtain ⟨parentNode, hparent⟩ := h.linked.parent_live hlive hp
      obtain ⟨root, hroot, hu⟩ := ih parent (h.linked.parent_lt hlive hp) hparent
      exact ⟨root, hroot, .step hlive hp hu⟩

theorem reaches_iff_live (h : tree.WellFormed) (hroot : tree.root = some root) :
    tree.arena.Reaches root id ↔ ∃ node, tree.arena.get? id = some node := by
  constructor
  · exact Arena.Reaches.live
  · rintro ⟨node, hlive⟩
    obtain ⟨root', hroot', hu⟩ := h.under_root hlive
    obtain rfl := Option.some.inj (hroot.symm.trans hroot')
    exact (h.linked.reaches_iff_under fun _ _ => rfl).mpr hu

theorem listed (h : tree.WellFormed) (hc : child ∈ tree.children id) : tree.Listed id child where
  points_back := h.linked.owned hc
  larger := h.linked.lower hc
  once := List.count_eq_one_of_mem (h.linked.once id) hc
  nowhere_else := fun _ hc' => h.linked.same_lister hc' hc
  no_cycle := fun hr =>
    Nat.not_lt.mpr (h.linked.le_of_under ((h.linked.reaches_iff_under fun _ _ => rfl).mp hr))
      (h.linked.lower hc)

theorem rootedAt (h : tree.WellFormed) (hroot : tree.root = some root) : tree.RootedAt root where
  is_root := hroot
  top := h.root_live hroot
  listed := fun _ _ => h.listed
  by_parent := by
    intro id node hlive hne
    have hother : tree.root ≠ some id := fun hid => hne (Option.some.inj (hid.symm.trans hroot))
    obtain ⟨parent, hp⟩ := h.parent_of_ne_root hlive hother
    exact ⟨parent, hp, h.linked.listed hlive hp⟩
  reachable := fun _ => (h.reaches_iff_live hroot).symm
  selection := fun _ => h.selected_live

theorem nothing_without_root (h : tree.WellFormed) (hroot : tree.root = none) :
    tree.selected = none ∧ tree.arena.isEmpty = true := by
  have hdead (id : NodeId) : tree.arena.get? id = none := by
    refine Option.eq_none_iff_forall_ne_some.mpr fun node hlive => ?_
    obtain ⟨root, hsome, _⟩ := h.under_root hlive
    simp [hroot] at hsome
  refine ⟨?_, Arena.isEmpty_iff.mpr hdead⟩
  cases hs : tree.selected with
  | none => rfl
  | some id =>
    obtain ⟨node, hlive⟩ := h.selected_live hs
    simp [hdead] at hlive

end TreeView.WellFormed

namespace Session
variable {σ : Type}

/-- The three sessions are any three moments of one run. -/
theorem run_keeps_structure (fs : FileSystem σ) (filter : NameFilter) (volumes : VolumeMap)
    (world : σ) (before between after : List (Action σ)) :
    let x := (start filter volumes world).run fs before
    let y := x.run fs between
    let z := y.run fs after
    ((x.tree.root = none ∧ x.tree.selected = none ∧ x.tree.arena.isEmpty = true) ∨
      ∃ root, x.tree.RootedAt root) ∧
    (∀ id node, x.tree.node? id = some node → y.tree.node? id = none → z.tree.node? id = none) ∧
    (∀ id node node', x.tree.node? id = some node → y.tree.node? id = some node' →
      node'.path = node.path ∧ node'.parent = node.parent) := by
  intro x y z
  have hx : x.tree.WellFormed := wellFormed_run (wellFormed_start filter volumes world) fs before
  have hxy := evolves_run hx fs between
  have hyz := evolves_run (wellFormed_run hx fs between) fs after
  refine ⟨?_, ?_, ?_⟩
  · cases hroot : x.tree.root with
    | none => exact .inl ⟨rfl, hx.nothing_without_root hroot⟩
    | some root => exact .inr ⟨root, hx.rootedAt hroot⟩
  · intro id node hlive hgone
    refine Option.eq_none_iff_forall_ne_some.mpr fun node' hback => ?_
    have hold : id < y.tree.arena.nextId := Nat.lt_of_lt_of_le (Arena.id_bounds hlive).2 hxy.grows
    obtain ⟨_, hlive', _⟩ := hyz.old hback hold
    cases hgone.symm.trans hlive'
  · intro id node node' hlive hlive'
    obtain ⟨was, hwas, hpath, hparent, _⟩ := hxy.old hlive' (Arena.id_bounds hlive).2
    obtain rfl := Option.some.inj (hwas.symm.trans hlive)
    exact ⟨hpath, hparent⟩

end Session

end LazyTree
