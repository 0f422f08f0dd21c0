import LazyTree.Proofs.Unseen
import LazyTree.TreeView.Selection

/-!
Trees without the flags that checks for sub-directories set. Whatever reads a tree reads the same
where the flags are taken away, and whatever changes a tree makes the same of it but for the flags.
-/
namespace LazyTree

/-- The node without the answer of its last check. -/
def Node.unflagged (node : Node) : Node := { node with expandable := false }

namespace Arena
variable {arena : Arena} {id : NodeId}

def unflagged (arena : Arena) : Arena := ⟨arena.slots.map (Option.map Node.unflagged)⟩

@[simp] theorem get?_unflagged (arena : Arena) (id : NodeId) :
    arena.unflagged.get? id = (arena.get? id).map Node.unflagged := by
  cases id with
  | zero => rfl
  | succ i => cases h : arena.slots[i]? <;> simp [unflagged, get?, h]

@[simp] theorem nextId_unflagged (arena : Arena) : arena.unflagged.nextId = arena.nextId := by
  simp [unflagged, nextId]

@[simp] theorem size_unflagged (arena : Arena) : arena.unflagged.size = arena.size := by
  simp only [unflagged, size, Array.countP_map]
  exact congrArg (fun p => Array.countP p arena.slots) (funext fun slot => Option.isSome_map)

@[simp] theorem contains_unflagged (arena : Arena) (id : NodeId) :
    arena.unflagged.contains id = arena.contains id := by
  simp [contains]

@[simp] theorem isExpanded_unflagged (arena : Arena) (id : NodeId) :
    arena.unflagged.isExpanded id = arena.isExpanded id := by
  cases h : arena.get? id <;> simp [isExpanded, h, Node.unflagged]

@[simp] theorem childrenOf_unflagged (arena : Arena) (id : NodeId) :
    arena.unflagged.childrenOf id = arena.childrenOf id := by
  cases h : arena.get? id <;> simp [childrenOf, h, Node.unflagged]

@[simp] theorem unflagged_unflagged (arena : Arena) :
    arena.unflagged.unflagged = arena.unflagged := by
  refine ext_get? (by simp) fun id => ?_
  rw [get?_unflagged, get?_unflagged, Option.map_map]
  rfl

theorem put_unflagged (arena : Arena) (id : NodeId) (slot : Option Node) :
    arena.unflagged.put id (slot.map Node.unflagged) = (arena.put id slot).unflagged := by
  cases id with
  | zero => rfl
  | succ i => simp [put, unflagged]

theorem insert_unflagged (arena : Arena) (handle : Handle) (parent : Option NodeId) :
    arena.unflagged.insert handle parent =
      ((arena.insert handle parent).1.unflagged, arena.nextId) := by
  simp [insert, unflagged, nextId, Node.unflagged, Node.fresh]

theorem modify_unflagged {f : Node → Node} (hf : ∀ node, f node.unflagged = (f node).unflagged) :
    arena.unflagged.modify id f = (arena.modify id f).unflagged := by
  refine ext_get? (by simp) fun other => ?_
  simp only [get?_modify, get?_unflagged]
  split
  · rw [Option.map_map, Option.map_map]
    exact congrArg (Option.map · _) (funext hf)
  · rfl

theorem unflagged_modify {f : Node → Node} (hf : ∀ node, (f node).unflagged = node.unflagged) :
    (arena.modify id f).unflagged = arena.unflagged := by
  refine ext_get? (by simp) fun other => ?_
  simp only [get?_modify, get?_unflagged]
  split
  · rw [Option.map_map]
    exact congrArg (Option.map · _) (funext hf)
  · rfl

theorem erase_unflagged (arena : Arena) (id : NodeId) :
    arena.unflagged.erase id = (arena.erase id).unflagged := put_unflagged arena id none

theorem clear_unflagged (arena : Arena) : arena.unflagged.clear = arena.clear.unflagged := by
  simp [clear, unflagged]

theorem unseen_unflagged : Unseen 0 unflagged where
  nextId := nextId_unflagged
  passed arena id := by
    rw [get?_unflagged, Option.map_map]
    rfl
  erased := erase_unflagged
  inserted arena listed parent _ := congrArg Prod.fst (insert_unflagged arena listed parent)
  rehandled _ _ _ := modify_unflagged fun _ => by rfl

end Arena

def Merged.unflagged (merged : Merged) : Merged := { merged with arena := merged.arena.unflagged }

namespace Arena

theorem mergeChildren_unflagged (parent : NodeId) (recursive : Bool) (arena : Arena)
    (children : List NodeId) (incoming : List Handle) :
    mergeChildren parent recursive arena.unflagged children incoming =
      (mergeChildren parent recursive arena children incoming).unflagged :=
  unseen_unflagged.mergeChildren_eq parent recursive (Nat.zero_le _) children incoming

theorem mergeListing_unflagged (arena : Arena) (parent : NodeId) (incoming : List Handle)
    (recursive keepOpen : Bool) :
    (arena.unflagged.mergeListing parent incoming recursive keepOpen).1 =
        (arena.mergeListing parent incoming recursive keepOpen).1 ∧
      (arena.unflagged.mergeListing parent incoming recursive keepOpen).2.unflagged =
        (arena.mergeListing parent incoming recursive keepOpen).2.unflagged := by
  unfold mergeListing
  cases hlive : arena.get? parent with
  | none => simp [hlive]
  | some node =>
    have htaken : arena.unflagged.put parent (some { node.unflagged with children := [] }) =
        (arena.put parent (some { node with children := [] })).unflagged :=
      put_unflagged arena parent (some { node with children := [] })
    have hchildren : node.unflagged.children = node.children := rfl
    simp only [get?_unflagged, hlive, Option.map_some, htaken, hchildren, mergeChildren_unflagged]
    generalize mergeChildren parent recursive _ node.children incoming = merged
    have harena : merged.unflagged.arena = merged.arena.unflagged := rfl
    have hlist : merged.unflagged.children = merged.children := rfl
    rw [harena, get?_unflagged, hlist]
    cases merged.arena.get? parent with
    | none => exact ⟨rfl, unflagged_unflagged _⟩
    | some node' =>
      refine ⟨rfl, ?_⟩
      simp only [Option.map_some, ← put_unflagged, unflagged_unflagged]
      rfl

end Arena

namespace TreeView
variable {β : Type} {tree tree' : TreeView}

def unflagged (tree : TreeView) : TreeView := { tree with arena := tree.arena.unflagged }

/-- `f` takes no notice of flags. -/
def Blind (f : TreeView → β) : Prop := ∀ tree, f tree.unflagged = f tree

theorem Blind.eq {f : TreeView → β} (hf : Blind f) (h : tree.unflagged = tree'.unflagged) :
    f tree = f tree' := (hf tree).symm.trans ((congrArg f h).trans (hf tree'))

@[simp] theorem unflagged_unflagged (tree : TreeView) : tree.unflagged.unflagged = tree.unflagged :=
  congrArg (fun arena => { tree with arena := arena }) tree.arena.unflagged_unflagged

@[simp] theorem node?_unflagged (tree : TreeView) (id : NodeId) :
    tree.unflagged.node? id = (tree.node? id).map Node.unflagged := tree.arena.get?_unflagged id

theorem blind_root : Blind root := fun _ => rfl

theorem blind_selected : Blind selected := fun _ => rfl

theorem blind_lister : Blind lister := fun _ => rfl

theorem blind_size : Blind size := fun tree => tree.arena.size_unflagged

theorem blind_holds (id : NodeId) : Blind (holds · id) := fun tree =>
  tree.arena.contains_unflagged id

theorem blind_isExpanded (id : NodeId) : Blind (·.arena.isExpanded id) := fun tree =>
  tree.arena.isExpanded_unflagged id

theorem blind_children (id : NodeId) : Blind (children · id) := fun tree =>
  tree.arena.childrenOf_unflagged id

theorem blind_node? (id : NodeId) : Blind fun tree => (tree.node? id).map Node.unflagged :=
  fun tree => by
    simp only [node?_unflagged, Option.map_map]
    rfl

theorem blind_pathOf? (id : NodeId) : Blind (pathOf? · id) := fun tree => by
  simp only [pathOf?, node?_unflagged, Option.map_map]
  rfl

theorem blind_rootPath? : Blind rootPath? := fun tree =>
  congrArg (Option.bind tree.root) (funext fun id => blind_pathOf? id tree)

theorem pathOf?_unflagged (tree : TreeView) : tree.unflagged.pathOf? = tree.pathOf? :=
  funext fun id => blind_pathOf? id tree

theorem children_unflagged (tree : TreeView) : tree.unflagged.children = tree.children :=
  funext fun id => blind_children id tree

theorem blind_wayTo? (parent : NodeId) (target : String) : Blind (wayTo? · parent target) :=
  fun tree => wayTo?_congr tree.pathOf?_unflagged tree.children_unflagged parent target

theorem blind_owner? (changed : String) : Blind (owner? · changed) := fun tree =>
  owner?_congr (blind_root tree) tree.pathOf?_unflagged tree.children_unflagged (blind_size tree)
    changed

theorem blind_collapsedChildren (parent : NodeId) : Blind (collapsedChildren · parent) :=
  fun tree => by
    simp only [collapsedChildren, children_unflagged, node?_unflagged]
    congr 1
    funext id
    cases tree.node? id <;> rfl

/-- What a change answers, and what it leaves but for the flags. -/
def bare (result : β × TreeView) : β × TreeView := (result.1, result.2.unflagged)

theorem blind_modify {f : Node → Node} (hf : ∀ node, f node.unflagged = (f node).unflagged)
    (id : NodeId) : Blind fun tree => (tree.modify id f).unflagged := fun tree =>
  congrArg (fun arena => { tree with arena := arena })
    ((congrArg Arena.unflagged (Arena.modify_unflagged hf)).trans (Arena.unflagged_unflagged _))

theorem blind_setExpanded (id : NodeId) (expanded : Bool) :
    Blind fun tree => (tree.setExpanded id expanded).unflagged :=
  blind_modify (fun _ => by rfl) id

theorem noteExpandable_unflagged (tree : TreeView) (id : NodeId) (found : Bool) :
    (tree.noteExpandable id found).unflagged = tree.unflagged := by
  refine congrArg (fun arena => { tree with arena := arena }) (Arena.unflagged_modify fun node => ?_)
  split <;> rfl

theorem blind_issue (id : NodeId) (recursive : Bool) :
    Blind fun tree => bare (tree.issue id recursive) := fun tree => by
  have hissued := blind_modify (f := fun n => { n with generation := n.generation + 1 })
    (fun _ => rfl) id tree
  simp only [issue, node?_unflagged, bare] at hissued ⊢
  cases tree.node? id with
  | none => exact congrArg (Prod.mk _) (unflagged_unflagged tree)
  | some node => exact congrArg (Prod.mk _) hissued

theorem blind_dropDeadSelection : Blind fun tree => tree.dropDeadSelection.unflagged :=
  fun tree => by
    have hholds (id : NodeId) : tree.unflagged.holds id = tree.holds id := blind_holds id tree
    have hselected : tree.unflagged.selected = tree.selected := rfl
    simp only [dropDeadSelection, hselected, hholds]
    cases tree.selected with
    | none => exact unflagged_unflagged tree
    | some id =>
      dsimp only
      split
      · exact unflagged_unflagged tree
      · exact congrArg (fun arena => { tree with arena := arena, selected := none })
          tree.arena.unflagged_unflagged

theorem blind_adoptResolved (id : NodeId) (resolved : Option Handle) :
    Blind fun tree => (tree.adoptResolved id resolved).unflagged := by
  cases resolved with
  | none => exact unflagged_unflagged
  | some handle => exact blind_modify (fun _ => by rfl) id

theorem mergeListing_eq_of_unflagged {arena arena' : Arena} (h : arena.unflagged = arena'.unflagged)
    (parent : NodeId) (incoming : List Handle) (recursive keepOpen : Bool) :
    (arena.mergeListing parent incoming recursive keepOpen).1 =
        (arena'.mergeListing parent incoming recursive keepOpen).1 ∧
      (arena.mergeListing parent incoming recursive keepOpen).2.unflagged =
        (arena'.mergeListing parent incoming recursive keepOpen).2.unflagged := by
  obtain ⟨hanswer, harena⟩ := arena.mergeListing_unflagged parent incoming recursive keepOpen
  obtain ⟨hanswer', harena'⟩ := arena'.mergeListing_unflagged parent incoming recursive keepOpen
  rw [h] at hanswer harena
  exact ⟨hanswer.symm.trans hanswer', harena.symm.trans harena'⟩

theorem blind_mergeFetched (ticket : Ticket) (listing : Listing) :
    Blind fun tree => bare (tree.mergeFetched ticket listing) := fun tree => by
  have hadopted : (tree.unflagged.adoptResolved ticket.node listing.resolved).unflagged =
      (tree.adoptResolved ticket.node listing.resolved).unflagged :=
    blind_adoptResolved ticket.node listing.resolved tree
  show bare (tree.unflagged.mergeFetched ticket listing) = bare (tree.mergeFetched ticket listing)
  simp only [mergeFetched]
  generalize tree.unflagged.adoptResolved ticket.node listing.resolved = bare' at hadopted ⊢
  generalize tree.adoptResolved ticket.node listing.resolved = full at hadopted ⊢
  obtain ⟨filter, volumes, arena, root, selected⟩ := bare'
  obtain ⟨filter', volumes', arena', root', selected'⟩ := full
  obtain ⟨rfl, rfl, harena, rfl, rfl⟩ := TreeView.mk.inj hadopted
  obtain ⟨hanswer, hmerged⟩ := mergeListing_eq_of_unflagged harena ticket.node listing.entries
    ticket.recursive (root = some ticket.node)
  generalize arena.mergeListing _ _ _ _ = result at hanswer hmerged ⊢
  generalize arena'.mergeListing _ _ _ _ = result' at hanswer hmerged ⊢
  obtain ⟨answer, merged⟩ := result
  obtain ⟨answer', merged'⟩ := result'
  obtain rfl : answer = answer' := hanswer
  have htree : TreeView.unflagged ⟨filter, volumes, merged, root, selected⟩ =
      TreeView.unflagged ⟨filter, volumes, merged', root, selected⟩ :=
    congrArg (TreeView.mk filter volumes · root selected) hmerged
  cases answer with
  | error e => exact congrArg (Prod.mk _) htree
  | ok outcome => exact congrArg (Prod.mk _) (blind_dropDeadSelection.eq htree)

theorem blind_applyFetched (ticket : Ticket) (fetched : Except Failure Listing) :
    Blind fun tree => bare (tree.applyFetched ticket fetched) := fun tree => by
  have hkept (answer : Except Failure Application) :
      bare (answer, tree.unflagged) = bare (answer, tree) :=
    congrArg (Prod.mk _) (unflagged_unflagged tree)
  simp only [applyFetched, node?_unflagged]
  cases tree.node? ticket.node with
  | none => exact hkept _
  | some node =>
    have hgen : node.unflagged.generation = node.generation := rfl
    simp only [Option.map_some, hgen]
    split
    · exact hkept _
    · cases fetched with
      | error e => exact hkept _
      | ok listing => exact blind_mergeFetched ticket listing tree

theorem blind_clear : Blind fun tree => tree.clear.unflagged := fun tree => by
  simp only [clear, unflagged, Arena.clear_unflagged, Arena.unflagged_unflagged]

theorem blind_bindTo (top : String) :
    Blind fun tree => ((tree.bindTo top).1.unflagged, (tree.bindTo top).2) := fun tree => by
  have hbound : ({ tree.unflagged.clear with
        arena := (tree.unflagged.clear.arena.insert (.placeholder top) none).1,
        root := some tree.arena.clear.nextId } : TreeView).unflagged =
      ({ tree.clear with
        arena := (tree.clear.arena.insert (.placeholder top) none).1,
        root := some tree.arena.clear.nextId } : TreeView).unflagged := by
    simp only [clear, unflagged, Arena.clear_unflagged, Arena.insert_unflagged,
      Arena.unflagged_unflagged]
  have hnext : tree.unflagged.clear.arena.nextId = tree.arena.clear.nextId := by
    simp only [clear, unflagged, Arena.clear_unflagged, Arena.nextId_unflagged]
  have hexpanded := (blind_setExpanded tree.arena.clear.nextId true).eq hbound
  simp only [bindTo, Arena.insert_id, hnext]
  exact congrArg (·, tree.arena.clear.nextId) hexpanded

theorem blind_ensureRoot (top : String) :
    Blind fun tree => ((tree.ensureRoot top).1.unflagged, (tree.ensureRoot top).2) := fun tree => by
  have hbound := blind_bindTo top tree
  have hroot : tree.unflagged.root = tree.root := rfl
  simp only [ensureRoot, blind_rootPath? tree, hroot]
  cases tree.root with
  | none => exact hbound
  | some root =>
    dsimp only
    split
    · exact congrArg (·, root) (unflagged_unflagged tree)
    · exact hbound

theorem expandUpwards_unflagged (arena : Arena) (height : Nat) (from? : Option NodeId) :
    expandUpwards arena.unflagged height from? = (expandUpwards arena height from?).unflagged := by
  induction height generalizing arena from? with
  | zero => rfl
  | succ height ih =>
    cases from? with
    | none => rfl
    | some id =>
      simp only [expandUpwards, Arena.get?_unflagged]
      cases arena.get? id with
      | none => rfl
      | some node =>
        simp only [Option.map_some]
        rw [Arena.modify_unflagged fun _ => by rfl, ih]
        rfl

theorem blind_settle (id : NodeId) : Blind fun tree => (tree.settle id).unflagged := fun tree => by
  have hparent : (tree.unflagged.node? id).bind Node.parent = (tree.node? id).bind Node.parent := by
    rw [node?_unflagged]
    cases tree.node? id <;> rfl
  show TreeView.mk tree.filter tree.volumes
      (expandUpwards tree.arena.unflagged tree.unflagged.size
        ((tree.unflagged.node? id).bind Node.parent)).unflagged tree.root (some id) = _
  rw [blind_size tree, hparent, expandUpwards_unflagged, Arena.unflagged_unflagged]
  rfl

theorem blind_collapse (id : NodeId) : Blind fun tree => bare (tree.collapse id) := fun tree => by
  have hroot : tree.unflagged.root = tree.root := rfl
  have hholds : tree.unflagged.holds id = tree.holds id := blind_holds id tree
  have hkept (answer : Except Failure Unit) :
      bare (answer, tree.unflagged) = bare (answer, tree) :=
    congrArg (Prod.mk _) (unflagged_unflagged tree)
  simp only [collapse, hroot, hholds]
  split
  · exact hkept _
  · split
    · exact congrArg (Prod.mk _) (blind_setExpanded id false tree)
    · exact hkept _

end TreeView

end LazyTree
