import LazyTree.TreeView.Selection
import LazyTree.Proofs.Evolution

/-!
Well-formed trees, and what issuing a refresh and applying its listing do to one.
-/
namespace LazyTree

/-- What `Linked` and well-formedness depend on. -/
def Node.links (node : Node) : Option NodeId × List NodeId := (node.parent, node.children)

namespace TreeView
variable {tree tree' : TreeView} {id : NodeId} {node : Node} {ticket : Ticket} {recursive : Bool}

/-- The arena is linked, its only node without parent is the root, and the selected node is live. -/
structure WellFormed (tree : TreeView) : Prop where
  linked : tree.arena.Linked
  top : ∀ {id node}, tree.arena.get? id = some node → node.parent = none → tree.root = some id
  root_live : ∀ {id}, tree.root = some id →
    ∃ node, tree.arena.get? id = some node ∧ node.parent = none
  selected_live : ∀ {id}, tree.selected = some id → ∃ node, tree.arena.get? id = some node

theorem wellFormed_of_empty (harena : ∀ id, tree.arena.get? id = none) (hroot : tree.root = none)
    (hselected : tree.selected = none) : tree.WellFormed := by
  have hlists (id : NodeId) : tree.arena.childrenOf id = [] := Arena.childrenOf_of_dead (harena id)
  constructor
  · constructor <;> simp [hlists, harena]
  · simp [harena]
  · simp [hroot]
  · simp [hselected]

theorem wellFormed_unbound (filter : NameFilter) (volumes : VolumeMap) :
    (unbound filter volumes).WellFormed := wellFormed_of_empty (by simp [unbound]) rfl rfl

theorem wellFormed_clear (tree : TreeView) : tree.clear.WellFormed :=
  wellFormed_of_empty (by simp [clear]) rfl rfl

theorem WellFormed.congr (h : tree.WellFormed)
    (hlinks : ∀ id, (tree'.arena.get? id).map Node.links = (tree.arena.get? id).map Node.links)
    (hroot : tree'.root = tree.root)
    (hselected : ∀ {id}, tree'.selected = some id → tree.selected = some id ∨
      ∃ node, tree.arena.get? id = some node) : tree'.WellFormed := by
  have hparents (id : NodeId) :
      (tree'.arena.get? id).map Node.parent = (tree.arena.get? id).map Node.parent := by
    simpa only [Option.map_map, Function.comp_def, Node.links] using
      congrArg (Option.map Prod.fst) (hlinks id)
  have hkids (id : NodeId) : tree'.arena.childrenOf id = tree.arena.childrenOf id := by
    have hmap := congrArg (Option.map Prod.snd) (hlinks id)
    simp only [Option.map_map, Function.comp_def, Node.links] at hmap
    rw [Arena.childrenOf_eq_getD, Arena.childrenOf_eq_getD, ← hmap]
  constructor
  · exact h.linked.congr hparents hkids
  · intro id node hlive hp
    obtain ⟨node', hlive', hp'⟩ := Arena.live_of_map_get?_eq (hparents id).symm hlive
    exact hroot.trans (h.top hlive' (hp'.trans hp))
  · intro id hr
    obtain ⟨node, hlive, hp⟩ := h.root_live (hroot.symm.trans hr)
    obtain ⟨node', hlive', hp'⟩ := Arena.live_of_map_get?_eq (hparents id) hlive
    exact ⟨node', hlive', hp'.trans hp⟩
  · intro id hs
    obtain ⟨node, hlive⟩ := (hselected hs).elim h.selected_live (·)
    obtain ⟨node', hlive', _⟩ := Arena.live_of_map_get?_eq (hparents id) hlive
    exact ⟨node', hlive'⟩

theorem WellFormed.modify (h : tree.WellFormed) (id : NodeId) {f : Node → Node}
    (hf : ∀ node, (f node).links = node.links) : (tree.modify id f).WellFormed :=
  h.congr (fun _ => Arena.map_get?_modify hf _) rfl .inl

theorem WellFormed.setExpanded (h : tree.WellFormed) (id : NodeId) (expanded : Bool) :
    (tree.setExpanded id expanded).WellFormed := h.modify id fun _ => rfl

theorem WellFormed.refiltered (h : tree.WellFormed) (filter : NameFilter) :
    TreeView.WellFormed { tree with filter := filter } := h.congr (fun _ => rfl) rfl .inl

theorem WellFormed.parent_of_ne_root (h : tree.WellFormed) (hlive : tree.arena.get? id = some node)
    (hne : tree.root ≠ some id) : ∃ parent, node.parent = some parent := by
  cases hp : node.parent with
  | none => exact absurd (h.top hlive hp) hne
  | some parent => exact ⟨parent, rfl⟩

theorem wellFormed_of_root {root : NodeId}
    (honly : ∀ id node, tree.arena.get? id = some node → id = root)
    (hlive : tree.arena.get? root = some node) (hparent : node.parent = none)
    (hchildren : node.children = []) (hroot : tree.root = some root)
    (hselected : tree.selected = none) : tree.WellFormed := by
  have hlists (id : NodeId) : tree.arena.childrenOf id = [] := by
    cases hn : tree.arena.get? id with
    | none => exact Arena.childrenOf_of_dead hn
    | some node' =>
      obtain rfl := honly id node' hn
      rw [Arena.childrenOf_of_live hlive, hchildren]
  constructor
  · constructor
    · simp [hlists]
    · simp [hlists]
    · simp [hlists]
    · intro id child node' hn hp
      obtain rfl := honly child node' hn
      obtain rfl := Option.some.inj (hn.symm.trans hlive)
      simp [hparent] at hp
    · simp [hlists]
  · intro id node' hn _
    exact hroot.trans (congrArg some (honly id node' hn).symm)
  · intro id hid
    obtain rfl := Option.some.inj (hroot.symm.trans hid)
    exact ⟨node, hlive, hparent⟩
  · simp [hselected]

theorem wellFormed_bindTo (tree : TreeView) (top : String) : (tree.bindTo top).1.WellFormed := by
  have hbound : WellFormed { tree.clear with
      arena := (tree.clear.arena.insert (.placeholder top) none).1
      root := some tree.clear.arena.nextId } := by
    refine wellFormed_of_root (fun id node hlive => ?_) (Arena.get?_insert_self ..) rfl rfl rfl rfl
    by_cases hid : id = tree.clear.arena.nextId
    · exact hid
    · rw [Arena.get?_insert_of_ne hid] at hlive
      simp [clear] at hlive
  exact hbound.modify _ fun _ => rfl

@[simp] theorem dropDeadSelection_arena (tree : TreeView) :
    tree.dropDeadSelection.arena = tree.arena := by
  unfold dropDeadSelection
  split
  · split <;> rfl
  · rfl

@[simp] theorem dropDeadSelection_root (tree : TreeView) :
    tree.dropDeadSelection.root = tree.root := by
  unfold dropDeadSelection
  split
  · split <;> rfl
  · rfl

theorem dropDeadSelection_selected (h : tree.dropDeadSelection.selected = some id) :
    tree.selected = some id ∧ ∃ node, tree.arena.get? id = some node := by
  unfold dropDeadSelection at h
  split at h
  · rename_i selected hs
    by_cases hlive : tree.holds selected = true
    · rw [if_pos hlive] at h
      obtain rfl := Option.some.inj (hs.symm.trans h)
      exact ⟨hs, Arena.contains_iff.mp hlive⟩
    · simp [hlive] at h
  · rename_i hs
    simp [hs] at h

theorem dropDeadSelection_of_live (hs : tree.selected = some id)
    (hlive : tree.arena.get? id = some node) : tree.dropDeadSelection.selected = some id := by
  have hholds : tree.holds id = true := Arena.contains_iff.mpr ⟨node, hlive⟩
  simp only [dropDeadSelection, hs, hholds, if_true]

/-- What applying a listing leaves of the tree. -/
structure Applied (tree tree' : TreeView) (target : NodeId) (node : Node) (listing : Listing)
    (children : List NodeId) : Prop where
  relisted : tree.arena.Relisted tree'.arena target
    { node with handle := listing.resolved.getD node.handle } listing.entries
    (tree.root = some target) children
  same_root : tree'.root = tree.root
  same_filter : tree'.filter = tree.filter
  same_volumes : tree'.volumes = tree.volumes
  selected : ∀ {id}, tree'.selected = some id →
    tree.selected = some id ∧ ∃ node, tree'.arena.get? id = some node
  still_selected : ∀ {id node'}, tree.selected = some id → tree'.arena.get? id = some node' →
    tree'.selected = some id

theorem get?_adoptResolved_of_ne {other : NodeId} (h : other ≠ id) (resolved : Option Handle) :
    (tree.adoptResolved id resolved).arena.get? other = tree.arena.get? other := by
  cases resolved with
  | none => rfl
  | some handle => exact Arena.get?_modify_of_ne h _

theorem get?_adoptResolved_self (h : tree.arena.get? id = some node) (resolved : Option Handle) :
    (tree.adoptResolved id resolved).arena.get? id =
      some { node with handle := resolved.getD node.handle } := by
  cases resolved with
  | none => exact h
  | some handle => simp [adoptResolved, TreeView.modify, h]

theorem WellFormed.adoptResolved (h : tree.WellFormed) (id : NodeId) (resolved : Option Handle) :
    (tree.adoptResolved id resolved).WellFormed := by
  cases resolved with
  | none => exact h
  | some handle => exact h.modify id fun _ => rfl

theorem map_get?_adoptResolved {β : Type} {view : Node → β}
    (hview : ∀ (node : Node) (handle : Handle), view { node with handle := handle } = view node)
    (id : NodeId) (resolved : Option Handle) (other : NodeId) :
    ((tree.adoptResolved id resolved).arena.get? other).map view =
      (tree.arena.get? other).map view := by
  cases resolved with
  | none => rfl
  | some handle => exact Arena.map_get?_modify (fun node => hview node handle) other

@[simp] theorem dropDeadSelection_filter (tree : TreeView) :
    tree.dropDeadSelection.filter = tree.filter := by
  unfold dropDeadSelection
  split
  · split <;> rfl
  · rfl

@[simp] theorem dropDeadSelection_volumes (tree : TreeView) :
    tree.dropDeadSelection.volumes = tree.volumes := by
  unfold dropDeadSelection
  split
  · split <;> rfl
  · rfl

theorem adoptResolved_eq (tree : TreeView) (id : NodeId) (resolved : Option Handle) :
    tree.adoptResolved id resolved =
      { tree with arena := (tree.adoptResolved id resolved).arena } := by
  cases resolved <;> rfl

theorem applyFetched_current (h : tree.WellFormed)
    (hlive : tree.arena.get? ticket.node = some node) (hgen : node.generation = ticket.generation)
    (listing : Listing) :
    ∃ outcome tree' children,
      tree.applyFetched ticket (.ok listing) = (.ok (.applied outcome), tree') ∧
      Applied tree tree' ticket.node node listing children ∧
      outcome.cascade =
        children.filter (fun id => ticket.recursive && tree.arena.isExpanded id) := by
  obtain ⟨adopted, hadopted⟩ : ∃ adopted,
      adopted = (tree.adoptResolved ticket.node listing.resolved).arena := ⟨_, rfl⟩
  have heq := adoptResolved_eq tree ticket.node listing.resolved
  have hlinked := (h.adoptResolved ticket.node listing.resolved).linked
  have hself := get?_adoptResolved_self hlive listing.resolved
  have hnext : adopted.nextId = tree.arena.nextId := by
    rw [hadopted]
    cases listing.resolved <;> simp [adoptResolved, TreeView.modify]
  rw [← hadopted] at heq hlinked hself
  obtain ⟨outcome, after, children, hmerge, hrelisted, hcascade⟩ :=
    Arena.mergeListing_spec hlinked hself listing.entries ticket.recursive
      (tree.root = some ticket.node)
  refine ⟨outcome, dropDeadSelection { tree with arena := after }, children, ?_,
    ⟨?_, ?_, ?_, ?_, ?_, ?_⟩, ?_⟩
  · simp only [applyFetched, node?, hlive, hgen, ne_eq, not_true_eq_false, if_false, mergeFetched,
      heq, hmerge]
  · rw [dropDeadSelection_arena]
    refine hrelisted.of_changed hlinked hself hnext (fun id hne => ?_) fun id => ?_
    · rw [hadopted, get?_adoptResolved_of_ne hne]
    · rw [hadopted, map_get?_adoptResolved fun _ _ => rfl]
  · exact dropDeadSelection_root _
  · exact dropDeadSelection_filter _
  · exact dropDeadSelection_volumes _
  · intro id hid
    rw [dropDeadSelection_arena]
    exact dropDeadSelection_selected hid
  · intro id node' hid hnow
    rw [dropDeadSelection_arena] at hnow
    exact dropDeadSelection_of_live hid hnow
  · rw [hcascade]
    refine List.filter_congr fun id _ => ?_
    rw [Arena.isExpanded_congr]
    rw [hadopted, map_get?_adoptResolved fun _ _ => rfl]

theorem Applied.evolves {target : NodeId} {listing : Listing} {children : List NodeId}
    (ha : Applied tree tree' target node listing children)
    (hlive : tree.arena.get? target = some node) : Arena.Evolves [] tree.arena tree'.arena :=
  ha.relisted.evolves hlive rfl rfl rfl

theorem Applied.wellFormed {target : NodeId} {listing : Listing} {children : List NodeId}
    (ha : Applied tree tree' target node listing children) (h : tree.WellFormed)
    (hlive : tree.arena.get? target = some node) : tree'.WellFormed := by
  have hr := ha.relisted
  constructor
  · exact hr.linked
  · intro id node' hlive' hp
    rw [ha.same_root]
    by_cases hid : id = target
    · subst hid
      obtain rfl := Option.some.inj (hlive'.symm.trans hr.self)
      exact h.top hlive hp
    · by_cases hc : id ∈ children
      · obtain ⟨_, hchild, hup⟩ := hr.child_live hc
        obtain rfl := Option.some.inj (hlive'.symm.trans hchild)
        simp [hp] at hup
      · rcases hr.frame id hid hc with hsame | ⟨hgone, _⟩
        · exact h.top (hsame.symm.trans hlive') hp
        · simp [hgone] at hlive'
  · intro id hroot
    obtain ⟨root, hlive', hp⟩ := h.root_live (ha.same_root.symm.trans hroot)
    by_cases hid : id = target
    · subst hid
      obtain rfl := Option.some.inj (hlive.symm.trans hlive')
      exact ⟨_, hr.self, hp⟩
    · have hc : id ∉ children := fun hc => by
        obtain ⟨_, hchild, hup⟩ := h.linked.owned (hr.of_kept h.linked hc hlive').1
        obtain rfl := Option.some.inj (hlive'.symm.trans hchild)
        simp [hp] at hup
      rcases hr.frame id hid hc with hsame | ⟨_, hu⟩
      · exact ⟨root, hsame.trans hlive', hp⟩
      · obtain ⟨_, hup, _⟩ := hu.up hid hlive'
        simp [hp] at hup
  · exact fun hid => (ha.selected hid).2

end TreeView

end LazyTree
