import LazyTree.Proofs.Handles
import LazyTree.Proofs.Snapshot
import LazyTree.Proofs.Tickets

/-!
Listings that come in late. Refreshes of several nodes may be under way at once, and nothing says in
which order their listings come in. What the tree is like afterwards can be read off the tree at the
start and the listings, so the order shows only in the ids of the nodes that were made meanwhile.
-/
namespace LazyTree

theorem filterMap_eq_of_map_eq {α β γ ε : Type} {f f' : α → β} {g g' : α → γ} {u u' : α → Option ε}
    (h : ∀ a b, f a = f' b → g a = g' b → u a = u' b) {as bs : List α}
    (hf : as.map f = bs.map f') (hg : as.map g = bs.map g') :
    as.filterMap u = bs.filterMap u' := by
  induction as generalizing bs with
  | nil =>
    obtain rfl := List.map_eq_nil_iff.mp hf.symm
    rfl
  | cons a as ih =>
    cases bs with
    | nil => simp at hf
    | cons b bs =>
      obtain ⟨hf, hfs⟩ := List.cons.inj hf
      obtain ⟨hg, hgs⟩ := List.cons.inj hg
      rw [List.filterMap_cons, List.filterMap_cons, h a b hf hg, ih hfs hgs]

/-- A ticket with the listing that was fetched for it. -/
structure Completion where
  ticket : Ticket
  listing : Listing

namespace TreeView
variable {tree now next one other : TreeView} {done done' : List Completion} {c : Completion}
variable {id child i j bound : NodeId} {was node node' : Node} {children : List NodeId}
variable {keepOpen : Bool}

def complete (tree : TreeView) (c : Completion) : TreeView :=
  (tree.applyFetched c.ticket (.ok c.listing)).2

/-- What becomes of the children a node has now when a completion of it comes in. -/
def fates (tree : TreeView) (c : Completion) : List Fate :=
  Fate.align tree.arena.handle? (tree.children c.ticket.node) c.listing.entries

/-- The node of a completion that has come in, where it is still live: `was` before, `node` now. -/
structure Brought (tree now : TreeView) (c : Completion) (was node : Node) : Prop where
  itself : node =
    { was.relisted node.children (tree.root = some c.ticket.node) with handle := node.handle }
  places : node.children.map (Arena.older? tree.arena.nextId) =
    (tree.fates c).filterMap Fate.place?
  handles : node.children.map now.arena.handle? = c.listing.entries.map some

/-- What `tree` has become after the completions `done` came in, in whatever order. Of a node that
is gone nothing is said: it is gone because a node above it no longer lists it. -/
structure Completed (tree : TreeView) (done : List Completion) (now : TreeView) : Prop where
  wellFormed : now.WellFormed
  same_root : now.root = tree.root
  evolves : Arena.Evolves [] tree.arena now.arena
  handle : ∀ {id was node}, tree.arena.get? id = some was → now.arena.get? id = some node →
    (∀ c ∈ done, was.parent ≠ some c.ticket.node) → node.handle = was.handle
  idle : ∀ {id was node}, tree.arena.get? id = some was → now.arena.get? id = some node →
    (∀ c ∈ done, c.ticket.node ≠ id) → node = { was with handle := node.handle }
  brought : ∀ {c was node}, c ∈ done → tree.arena.get? c.ticket.node = some was →
    now.arena.get? c.ticket.node = some node → Brought tree now c was node
  later : ∀ {id node}, now.arena.get? id = some node → tree.arena.nextId ≤ id →
    ∃ listed parent, node = .fresh listed parent
  selected : ∀ id, now.selected = some id ↔
    tree.selected = some id ∧ ∃ node, now.arena.get? id = some node

namespace Completed

theorem start (hw : tree.WellFormed) : Completed tree [] tree where
  wellFormed := hw
  same_root := rfl
  evolves := .refl _
  handle := fun hwas hnode _ => by rw [Option.some.inj (hwas.symm.trans hnode)]
  idle := fun hwas hnode _ => by rw [Option.some.inj (hwas.symm.trans hnode)]
  brought := fun hc => absurd hc List.not_mem_nil
  later := fun hnode hle => absurd (Arena.id_bounds hnode).2 (Nat.not_lt.mpr hle)
  selected := fun _ => ⟨fun hs => ⟨hs, hw.selected_live hs⟩, fun hs => hs.1⟩

theorem children_of_idle (h : Completed tree done now) (hwas : tree.arena.get? id = some was)
    (hlive : now.arena.get? id = some node) (hnone : ∀ c ∈ done, c.ticket.node ≠ id) :
    node.children = was.children := by rw [h.idle hwas hlive hnone]

theorem handle?_child (h : Completed tree done now) (hw : tree.WellFormed)
    (hnone : ∀ c ∈ done, c.ticket.node ≠ id) (hc : child ∈ tree.children id)
    (hlive : ∃ node, now.arena.get? child = some node) :
    now.arena.handle? child = tree.arena.handle? child := by
  obtain ⟨node, hnode⟩ := hlive
  obtain ⟨was, hwas, hup⟩ := hw.linked.owned hc
  have hhandle : node.handle = was.handle := by
    refine h.handle hwas hnode fun c hc => ?_
    rw [hup, ne_eq, Option.some.injEq]
    exact (hnone c hc).symm
  rw [Arena.handle?, Arena.handle?, hnode, hwas, Option.map_some, Option.map_some, hhandle]

theorem stale (h : Completed tree done now) (hdead : now.arena.get? c.ticket.node = none) :
    Completed tree (c :: done) now where
  wellFormed := h.wellFormed
  same_root := h.same_root
  evolves := h.evolves
  handle := fun hwas hnode hnone =>
    h.handle hwas hnode fun d hd => hnone d (List.mem_cons_of_mem c hd)
  idle := fun hwas hnode hnone =>
    h.idle hwas hnode fun d hd => hnone d (List.mem_cons_of_mem c hd)
  brought := by
    intro d was node hd hwas hnode
    rcases List.mem_cons.mp hd with rfl | hd
    · exact absurd (hnode.symm.trans hdead) (Option.some_ne_none node)
    · exact h.brought hd hwas hnode
  later := h.later
  selected := h.selected

/-- The children of the node still have the handles that they had at the start, so the fates are
those of the start. -/
theorem align_eq_fates (h : Completed tree done now) (hw : tree.WellFormed)
    (hnew : ∀ d ∈ done, d.ticket.node ≠ c.ticket.node)
    (hwas : tree.arena.get? c.ticket.node = some was)
    (hlive : now.arena.get? c.ticket.node = some node) :
    Fate.align now.arena.handle? node.children c.listing.entries = tree.fates c := by
  have hkids : tree.children c.ticket.node = node.children := by
    rw [h.children_of_idle hwas hlive hnew]
    exact Arena.childrenOf_of_live hwas
  rw [fates, hkids]
  refine Fate.align_congr fun child hc => ?_
  obtain ⟨childNode, hchild, _⟩ := h.wellFormed.linked.child_live hlive hc
  exact h.handle?_child hw hnew (hkids ▸ hc) ⟨childNode, hchild⟩

theorem brought_now (h : Completed tree done now) (hw : tree.WellFormed)
    (hnew : ∀ d ∈ done, d.ticket.node ≠ c.ticket.node)
    (hr : now.arena.Relisted next.arena c.ticket.node node c.listing.entries
      (now.root = some c.ticket.node) children)
    (hwas : tree.arena.get? c.ticket.node = some was)
    (hlive : now.arena.get? c.ticket.node = some node)
    (hnode' : next.arena.get? c.ticket.node = some node') : Brought tree next c was node' := by
  obtain rfl := Option.some.inj (hnode'.symm.trans hr.self)
  refine ⟨?_, ?_, Arena.map_handle?_of_placed hr.placed⟩
  · rw [h.idle hwas hlive hnew, h.same_root]
    rfl
  · rw [← h.align_eq_fates hw hnew hwas hlive]
    refine hr.places _ h.evolves.grows fun child hc => ?_
    rw [h.children_of_idle hwas hlive hnew] at hc
    obtain ⟨_, hchild, _⟩ := hw.linked.child_live hwas hc
    exact (Arena.id_bounds hchild).2

theorem brought_before (h : Completed tree done now) (hnext : next.WellFormed) {d : Completion}
    (hd : d ∈ done) (hne : d.ticket.node ≠ c.ticket.node)
    (hr : now.arena.Relisted next.arena c.ticket.node node c.listing.entries keepOpen children)
    (hlive : now.arena.get? c.ticket.node = some node)
    (hwas : tree.arena.get? d.ticket.node = some was)
    (hnode' : next.arena.get? d.ticket.node = some node') : Brought tree next d was node' := by
  have hold := Nat.lt_of_lt_of_le (Arena.id_bounds hwas).2 h.evolves.grows
  rcases hr.old_cases hnode' hold with ⟨heq, _⟩ | ⟨_, prev, hprev, heq, _⟩
  · exact absurd heq hne
  · obtain ⟨hitself, hplaces, hhandles⟩ := h.brought hd hwas hprev
    have hkids : node'.children = prev.children := by rw [heq]
    refine ⟨?_, by rw [hkids, hplaces], ?_⟩
    · rw [heq]
      dsimp only
      rw [hitself]
      rfl
    · rw [← hhandles, hkids]
      refine List.map_congr_left fun child hc => ?_
      obtain ⟨_, hbefore, _⟩ := h.wellFormed.linked.child_live hprev hc
      obtain ⟨_, hchild, hup⟩ := hnext.linked.child_live hnode' (hkids ▸ hc)
      refine hr.handle?_elsewhere hlive hchild (Arena.id_bounds hbefore).2 ?_
      rwa [hup, ne_eq, Option.some.injEq]

theorem applied (h : Completed tree done now) (hw : tree.WellFormed)
    (hcurrent : tree.Current c.ticket) (hnew : ∀ d ∈ done, d.ticket.node ≠ c.ticket.node)
    (hunresolved : c.listing.resolved = none)
    (hlive : now.arena.get? c.ticket.node = some node) :
    Completed tree (c :: done) (now.complete c) := by
  obtain ⟨was, hwas, hgen⟩ := hcurrent
  have hgen : node.generation = c.ticket.generation := by
    rw [h.idle hwas hlive hnew]
    exact hgen
  obtain ⟨_, next, children, heq, ha, _⟩ := applyFetched_current h.wellFormed hlive hgen c.listing
  have hcomplete : now.complete c = next := congrArg Prod.snd heq
  have hr := ha.relisted
  have hsame : { node with handle := c.listing.resolved.getD node.handle } = node := by
    rw [hunresolved]
    rfl
  rw [hsame] at hr
  have hnext := ha.wellFormed h.wellFormed hlive
  have hevolves : Arena.Evolves [] tree.arena next.arena := h.evolves.trans (ha.evolves hlive)
  have hold {id : NodeId} {was : Node} (hwas : tree.arena.get? id = some was) :
      id < now.arena.nextId := Nat.lt_of_lt_of_le (Arena.id_bounds hwas).2 h.evolves.grows
  rw [hcomplete]
  refine { wellFormed := hnext, same_root := ha.same_root.trans h.same_root, evolves := hevolves,
           handle := ?handle, idle := ?idle, brought := ?brought, later := ?later,
           selected := ?selected }
  case handle =>
    intro id was' node' hwas' hnode' hnone
    obtain ⟨hother, hnone⟩ := List.forall_mem_cons.mp hnone
    rcases hr.old_cases hnode' (hold hwas') with ⟨rfl, rfl⟩ | ⟨_, prev, hprev, _, hkeep⟩
    · exact (h.handle hwas' hlive hnone :)
    · obtain ⟨was'', hwas'', _, hparent, _⟩ := hevolves.old hnode' (Arena.id_bounds hwas').2
      obtain rfl := Option.some.inj (hwas'.symm.trans hwas'')
      exact (hkeep (hparent ▸ hother)).trans (h.handle hwas' hprev hnone)
  case idle =>
    intro id was' node' hwas' hnode' hnone
    obtain ⟨hother, hnone⟩ := List.forall_mem_cons.mp hnone
    rcases hr.old_cases hnode' (hold hwas') with ⟨rfl, _⟩ | ⟨_, prev, hprev, heq, _⟩
    · exact absurd rfl hother
    · rw [heq, h.idle hwas' hprev hnone]
  case brought =>
    intro d was' node' hd hwas' hnode'
    rcases List.mem_cons.mp hd with rfl | hd
    · exact h.brought_now hw hnew hr hwas' hlive hnode'
    · exact h.brought_before hnext hd (hnew d hd) hr hlive hwas' hnode'
  case later =>
    intro id node' hnode' hle
    cases hr.origin hnode' with
    | self eq => exact absurd (Arena.id_bounds hwas).2 (Nat.not_lt.mpr (eq ▸ hle))
    | added _ _ _ => exact ⟨_, _, rfl⟩
    | kept _ _ _ fated =>
      -- Nothing came in for the node yet, so the children that it keeps are those of the start.
      have hc := Fate.mem_of_kept fated
      rw [h.children_of_idle hwas hlive hnew] at hc
      obtain ⟨_, hchild, _⟩ := hw.linked.child_live hwas hc
      exact absurd (Arena.id_bounds hchild).2 (Nat.not_lt.mpr hle)
    | untouched _ _ live => exact h.later live hle
  case selected =>
    intro id
    constructor
    · intro hs
      obtain ⟨hs, hlive'⟩ := ha.selected hs
      exact ⟨((h.selected id).mp hs).1, hlive'⟩
    · rintro ⟨hs, node', hnode'⟩
      obtain ⟨_, hwas'⟩ := hw.selected_live hs
      obtain ⟨prev, hprev, _⟩ := (ha.evolves hlive).old hnode' (hold hwas')
      exact ha.still_selected ((h.selected id).mpr ⟨hs, prev, hprev⟩) hnode'

theorem complete (h : Completed tree done now) (hw : tree.WellFormed)
    (hcurrent : tree.Current c.ticket) (hnew : ∀ d ∈ done, d.ticket.node ≠ c.ticket.node)
    (hunresolved : c.listing.resolved = none) :
    Completed tree (c :: done) (now.complete c) := by
  cases hlive : now.arena.get? c.ticket.node with
  | some node => exact h.applied hw hcurrent hnew hunresolved hlive
  | none =>
    have hstale : now.complete c = now := by simp [TreeView.complete, applyFetched, node?, hlive]
    rw [hstale]
    exact h.stale hlive

theorem foldl (h : Completed tree done now) (hw : tree.WellFormed) {cs : List Completion}
    (hcurrent : ∀ c ∈ cs, tree.Current c.ticket) (hunresolved : ∀ c ∈ cs, c.listing.resolved = none)
    (hnodes : cs.Pairwise fun c d => c.ticket.node ≠ d.ticket.node)
    (hnew : ∀ d ∈ done, ∀ c ∈ cs, d.ticket.node ≠ c.ticket.node) :
    Completed tree (cs.reverse ++ done) (cs.foldl TreeView.complete now) := by
  induction cs generalizing done now with
  | nil => exact h
  | cons c cs ih =>
    obtain ⟨hfirst, hnodes⟩ := List.pairwise_cons.mp hnodes
    obtain ⟨hc, hcurrent⟩ := List.forall_mem_cons.mp hcurrent
    obtain ⟨hu, hunresolved⟩ := List.forall_mem_cons.mp hunresolved
    have hnext := h.complete hw hc (fun d hd => hnew d hd c List.mem_cons_self) hu
    rw [List.reverse_cons, List.append_assoc]
    refine ih hnext hcurrent hunresolved hnodes fun d hd e he => ?_
    rcases List.mem_cons.mp hd with rfl | hd
    · exact hfirst e he
    · exact hnew d hd e (List.mem_cons_of_mem c he)

section
variable (h : Completed tree done one) (h' : Completed tree done' other) (hw : tree.WellFormed)
variable (hsame : ∀ c, c ∈ done ↔ c ∈ done')
include h h' hw hsame

/-- A node that was there at the start shows the same after the same completions, and so do its
children one by one, new ones among them. -/
theorem same_node (hwas : tree.arena.get? id = some was) (hnode : one.arena.get? id = some node)
    (hnode' : other.arena.get? id = some node') :
    node' = { node with handle := node'.handle, children := node'.children } ∧
      node.children.map (Arena.older? tree.arena.nextId) =
        node'.children.map (Arena.older? tree.arena.nextId) ∧
      node.children.map one.arena.handle? = node'.children.map other.arena.handle? := by
  by_cases hc : ∃ c ∈ done, c.ticket.node = id
  · obtain ⟨c, hc, rfl⟩ := hc
    obtain ⟨hitself, hplaces, hhandles⟩ := h.brought hc hwas hnode
    obtain ⟨hitself', hplaces', hhandles'⟩ := h'.brought ((hsame c).mp hc) hwas hnode'
    have hplaces := hplaces.trans hplaces'.symm
    have hempty : node.children.isEmpty = node'.children.isEmpty := by
      have hempty := congrArg List.isEmpty hplaces
      rwa [List.isEmpty_map, List.isEmpty_map] at hempty
    refine ⟨?_, hplaces, hhandles.trans hhandles'.symm⟩
    rw [hitself, hitself', Node.relisted, Node.relisted, hempty]
  · have hnone : ∀ c ∈ done, c.ticket.node ≠ id := fun c hd heq => hc ⟨c, hd, heq⟩
    have hnone' : ∀ c ∈ done', c.ticket.node ≠ id := fun c hd => hnone c ((hsame c).mpr hd)
    have hkids := h.children_of_idle hwas hnode hnone
    have hkids' : node.children = node'.children :=
      hkids.trans (h'.children_of_idle hwas hnode' hnone').symm
    refine ⟨?_, by rw [hkids'], ?_⟩
    · rw [h.idle hwas hnode hnone, h'.idle hwas hnode' hnone']
    · rw [← hkids']
      refine List.map_congr_left fun child hc => ?_
      obtain ⟨_, hchild, _⟩ := h.wellFormed.linked.child_live hnode hc
      obtain ⟨_, hchild', _⟩ := h'.wellFormed.linked.child_live hnode' (hkids' ▸ hc)
      have hlisted : child ∈ tree.children id := by
        rwa [children, Arena.childrenOf_of_live hwas, ← hkids]
      rw [h.handle?_child hw hnone hlisted ⟨_, hchild⟩,
        h'.handle?_child hw hnone' hlisted ⟨_, hchild'⟩]

/-- An old node is compared with itself, and a new one with a new one of the same handle: their
branches differ in new ids alone. -/
theorem anonymous_branch? (hbound : bound ≤ tree.arena.nextId) (depth : Nat)
    (hplace : Arena.older? tree.arena.nextId i = Arena.older? tree.arena.nextId j)
    (hhandle : one.arena.handle? i = other.arena.handle? j) :
    (one.branch? depth i).map (Branch.anonymous bound) =
      (other.branch? depth j).map (Branch.anonymous bound) := by
  induction depth generalizing i j with
  | zero => rfl
  | succ depth ih =>
    cases hnode : one.arena.get? i with
    | none =>
      have hdead : other.arena.get? j = none := by
        rwa [Arena.handle?, hnode, Option.map_none, eq_comm, Arena.handle?,
          Option.map_eq_none_iff] at hhandle
      simp only [branch?, node?, hnode, hdead]
    | some node =>
      rw [Arena.handle?, hnode, Option.map_some] at hhandle
      obtain ⟨node', hnode', hhandle⟩ := Option.map_eq_some_iff.mp hhandle.symm
      simp only [branch?, node?, hnode, hnode', Option.map_some, Branch.anonymous,
        Branch.anonymousAll_eq_map, List.map_filterMap]
      by_cases hi : i < tree.arena.nextId
      · rw [Arena.older?_of_lt hi, eq_comm, Arena.older?_eq_some_iff] at hplace
        obtain ⟨_, rfl⟩ := hplace
        obtain ⟨was, hwas, _⟩ := h.evolves.old hnode hi
        obtain ⟨hitself, hplaces, hhandles⟩ := h.same_node h' hw hsame hwas hnode hnode'
        have hbelow := filterMap_eq_of_map_eq (fun _ _ => ih) hplaces hhandles
        rw [Option.some.injEq, hbelow, hitself]
        simp [Node.label, hhandle]
      · have hi := Nat.le_of_not_lt hi
        rw [Arena.older?_of_le hi, eq_comm, Arena.older?_eq_none_iff] at hplace
        obtain ⟨listed, _, rfl⟩ := h.later hnode hi
        obtain ⟨listed', _, rfl⟩ := h'.later hnode' hplace
        obtain rfl : listed' = listed := hhandle
        rw [if_neg (Nat.not_lt.mpr (Nat.le_trans hbound hi)),
          if_neg (Nat.not_lt.mpr (Nat.le_trans hbound hplace))]
        rfl

theorem live_of_live (hold : id < tree.arena.nextId) (hnode : one.arena.get? id = some node) :
    ∃ node', other.arena.get? id = some node' := by
  -- By induction down from the root: where both trees have the parent, both list the child.
  induction id using Nat.strongRecOn generalizing node with
  | _ id ih =>
    cases hup : node.parent with
    | none =>
      have hroot := h.wellFormed.top hnode hup
      rw [h.same_root, ← h'.same_root] at hroot
      obtain ⟨node', hnode', _⟩ := h'.wellFormed.root_live hroot
      exact ⟨node', hnode'⟩
    | some parent =>
      have hlt := h.wellFormed.linked.parent_lt hnode hup
      have holdParent := Nat.lt_trans hlt hold
      obtain ⟨above, habove⟩ := h.wellFormed.linked.parent_live hnode hup
      obtain ⟨above', habove'⟩ := ih parent hlt holdParent habove
      obtain ⟨was, hwas, _⟩ := h.evolves.old habove holdParent
      obtain ⟨_, hplaces, _⟩ := h.same_node h' hw hsame hwas habove habove'
      have hlisted : id ∈ above.children := by
        rw [← Arena.childrenOf_of_live habove]
        exact h.wellFormed.linked.listed hnode hup
      have hplace : some id ∈ above'.children.map (Arena.older? tree.arena.nextId) := by
        rw [← hplaces]
        exact List.mem_map.mpr ⟨id, hlisted, Arena.older?_of_lt hold⟩
      obtain ⟨child, hchild, heq⟩ := List.mem_map.mp hplace
      obtain ⟨_, rfl⟩ := Arena.older?_eq_some_iff.mp heq
      obtain ⟨node', hnode', _⟩ := h'.wellFormed.linked.child_live habove' hchild
      exact ⟨node', hnode'⟩

theorem same_selectedPath? : one.selectedPath? = other.selectedPath? := by
  have hback : ∀ c, c ∈ done' ↔ c ∈ done := fun c => (hsame c).symm
  have hselected : one.selected = other.selected := by
    refine Option.ext fun id => ?_
    rw [h.selected, h'.selected]
    refine and_congr_right fun hs => ?_
    obtain ⟨_, hwas⟩ := hw.selected_live hs
    have hold := (Arena.id_bounds hwas).2
    exact ⟨fun ⟨_, hlive⟩ => h.live_of_live h' hw hsame hold hlive,
      fun ⟨_, hlive⟩ => h'.live_of_live h hw hback hold hlive⟩
  rw [selectedPath?, selectedPath?, hselected]
  cases hs : other.selected with
  | none => rfl
  | some id =>
    obtain ⟨node', hnode'⟩ := h'.wellFormed.selected_live hs
    obtain ⟨node, hnode⟩ := h.wellFormed.selected_live (hselected.trans hs)
    obtain ⟨_, hwas⟩ := hw.selected_live ((h'.selected id).mp hs).1
    obtain ⟨hitself, _⟩ := h.same_node h' hw hsame hwas hnode hnode'
    simp only [Option.bind_some, pathOf?, node?, hnode, hnode', Option.map_some]
    rw [hitself]

theorem same_snapshot (hbound : bound ≤ tree.arena.nextId) :
    one.snapshot.anonymous bound = other.snapshot.anonymous bound := by
  have hroot : other.root = one.root := h'.same_root.trans h.same_root.symm
  rw [Snapshot.anonymous, Snapshot.anonymous, Snapshot.mk.injEq]
  refine ⟨?_, h.same_selectedPath? h' hw hsame⟩
  simp only [snapshot, hroot]
  cases hone : one.root with
  | none => rfl
  | some root =>
    -- Both snapshots go to the bottom, so they may as well go equally deep.
    have hdepth := branch?_of_size_le h.wellFormed.linked
      (Nat.le_max_left one.size other.size) root
    have hdepth' := branch?_of_size_le h'.wellFormed.linked
      (Nat.le_max_right one.size other.size) root
    simp only [Option.bind_some, ← hdepth, ← hdepth']
    refine h.anonymous_branch? h' hw hsame hbound _ rfl ?_
    obtain ⟨node, hnode, hup⟩ := h.wellFormed.root_live hone
    obtain ⟨node', hnode', _⟩ := h'.wellFormed.root_live (hroot.trans hone)
    obtain ⟨was, hwas, hparent⟩ := hw.root_live (h.same_root.symm.trans hone)
    have htop (done : List Completion) : ∀ c ∈ done, was.parent ≠ some c.ticket.node := by
      simp [hparent]
    rw [Arena.handle?, Arena.handle?, hnode, hnode', Option.map_some, Option.map_some,
      h.handle hwas hnode (htop done), h'.handle hwas hnode' (htop done')]

end

end Completed

theorem anonymous_snapshot_perm (hw : tree.WellFormed) {cs ds : List Completion}
    (hperm : cs.Perm ds) (hcurrent : ∀ c ∈ cs, tree.Current c.ticket)
    (hunresolved : ∀ c ∈ cs, c.listing.resolved = none)
    (hnodes : cs.Pairwise fun c d => c.ticket.node ≠ d.ticket.node)
    (hbound : bound ≤ tree.arena.nextId) :
    (cs.foldl complete tree).snapshot.anonymous bound =
      (ds.foldl complete tree).snapshot.anonymous bound := by
  have hmem {c : Completion} : c ∈ ds → c ∈ cs := hperm.mem_iff.mpr
  have hone := (Completed.start hw).foldl hw hcurrent hunresolved hnodes (by simp)
  have hother := (Completed.start hw).foldl hw (fun c hc => hcurrent c (hmem hc))
    (fun c hc => hunresolved c (hmem hc)) (hnodes.perm hperm fun hne => hne.symm) (by simp)
  refine hone.same_snapshot hother hw (fun c => ?_) hbound
  simp [hperm.mem_iff]

end TreeView

namespace Session
variable {σ : Type}

/-- Two listings of different nodes, neither of which resolves a placeholder, may come in in either
order: the snapshots agree but for the ids of nodes made since, also where one node lies below the
other and its ticket turns stale. -/
theorem run_late_completions_commute (fs : FileSystem σ) (filter : NameFilter)
    (volumes : VolumeMap) (world : σ) (actions : List (Action σ)) :
    let x := (start filter volumes world).run fs actions
    ∀ (a b : Ticket) (la lb : Listing), x.tree.Current a → x.tree.Current b → a.node ≠ b.node →
      la.resolved = none → lb.resolved = none →
      let one := ((x.tree.applyFetched a (.ok la)).2.applyFetched b (.ok lb)).2
      let other := ((x.tree.applyFetched b (.ok lb)).2.applyFetched a (.ok la)).2
      ∀ bound ≤ x.tree.arena.nextId,
        one.snapshot.anonymous bound = other.snapshot.anonymous bound := by
  intro x a b la lb ha hb hne hla hlb one other bound hbound
  have hw := wellFormed_run (wellFormed_start filter volumes world) fs actions
  have hperm : [Completion.mk a la, ⟨b, lb⟩].Perm [⟨b, lb⟩, ⟨a, la⟩] := .swap ..
  refine TreeView.anonymous_snapshot_perm hw hperm ?_ ?_ ?_ hbound
  · simpa using And.intro ha hb
  · simp [hla, hlb]
  · simp [hne]

/-- New directories in a node and in its child get different ids in the two orders. -/
theorem endless_late_completions_commute :
    let x := (start .everything ⟨"/net", [], "", "", [], []⟩ ()).run .endless
      [.operate (.select "/A" 1), .operate (.expand 2), .issue 1 false, .issue 2 false]
    let a : Ticket := ⟨1, 2, .real "/A", false⟩
    let b : Ticket := ⟨2, 2, .real "/A/A", false⟩
    let la : Listing := ⟨none, [.real "/A/A", .real "/A/b", .real "/A/c"]⟩
    let lb : Listing := ⟨none, [.real "/A/A/A", .real "/A/A/b", .real "/A/A/c"]⟩
    let one := ((x.tree.applyFetched a (.ok la)).2.applyFetched b (.ok lb)).2
    let other := ((x.tree.applyFetched b (.ok lb)).2.applyFetched a (.ok la)).2
    x.tickets = [a, b] ∧ x.tree.arena.nextId = 6 ∧
      one.children 1 = [2, 3, 6] ∧ other.children 1 = [2, 3, 7] ∧
      one.snapshot.anonymous 6 = other.snapshot.anonymous 6 := by
  refine ⟨by decide +kernel, by decide +kernel, by decide +kernel, by decide +kernel, ?_⟩
  exact run_late_completions_commute .endless .everything ⟨"/net", [], "", "", [], []⟩ ()
    [.operate (.select "/A" 1), .operate (.expand 2), .issue 1 false, .issue 2 false]
    ⟨1, 2, .real "/A", false⟩ ⟨2, 2, .real "/A/A", false⟩
    ⟨none, [.real "/A/A", .real "/A/b", .real "/A/c"]⟩
    ⟨none, [.real "/A/A/A", .real "/A/A/b", .real "/A/A/c"]⟩
    (TreeView.current_iff_generation.mpr (by decide +kernel))
    (TreeView.current_iff_generation.mpr (by decide +kernel))
    (by decide) rfl rfl 6 (by decide +kernel)

end Session

end LazyTree
