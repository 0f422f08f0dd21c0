import LazyTree.Proofs.WellFormed

/-!
The changes that tree operations are made of. What every single change keeps, a run of them keeps,
and so does each operation.
-/
namespace LazyTree

inductive Move where
  | issue (id : NodeId) (recursive : Bool)
  | apply (ticket : Ticket) (fetched : Except Failure Listing)
  | note (id : NodeId) (found : Bool)
  | setExpanded (id : NodeId) (expanded : Bool)
  | useFilter (filter : NameFilter)
  | clear
  | bindTo (top : String)
  | deselect
  | settle (id : NodeId)

/-- Where a node lies and what it lists. -/
def Node.face (node : Node) : String × Handle × List NodeId :=
  (node.path, node.handle, node.children)

namespace TreeView
variable {σ : Type} {fs : FileSystem σ} {tree mid last : TreeView} {id other : NodeId} {node : Node}
variable {move : Move} {moves later : List Move} {ticket : Ticket}

def act (tree : TreeView) : Move → TreeView
  | .issue id recursive => (tree.issue id recursive).2
  | .apply ticket fetched => (tree.applyFetched ticket fetched).2
  | .note id found => tree.noteExpandable id found
  | .setExpanded id expanded => tree.setExpanded id expanded
  | .useFilter filter => { tree with filter := filter }
  | .clear => tree.clear
  | .bindTo top => (tree.bindTo top).1
  | .deselect => { tree with selected := none }
  | .settle id => tree.settle id

/-- Whether a tree may see a move: listings were fetched for the handle of their ticket, which is
one of its node's directory, and only a live node is settled on. -/
def Allows (fs : FileSystem σ) (tree : TreeView) : Move → Prop
  | .apply ticket fetched =>
    (∀ node, tree.arena.get? ticket.node = some node → ticket.handle.path = node.handle.path) ∧
      ∀ listing, fetched = .ok listing → ∃ filter volumes s,
        (fetchVisible fs filter volumes ticket.handle s).1 = .ok listing
  | .settle id => ∃ node, tree.arena.get? id = some node
  | _ => True

/-- The moves, one after the other, lead from the first tree to the last. -/
inductive Run (fs : FileSystem σ) : TreeView → List Move → TreeView → Prop where
  | nil {tree : TreeView} : Run fs tree [] tree
  | cons {tree last : TreeView} {move : Move} {moves : List Move} (allowed : tree.Allows fs move)
      (rest : Run fs (tree.act move) moves last) : Run fs tree (move :: moves) last

theorem Run.append (h : Run fs tree moves mid) (h' : Run fs mid later last) :
    Run fs tree (moves ++ later) last := by
  induction h with
  | nil => exact h'
  | cons allowed _ ih => exact .cons allowed (ih h')

theorem Run.single (allowed : tree.Allows fs move) : Run fs tree [move] (tree.act move) :=
  .cons allowed .nil

theorem Run.split (h : Run fs tree (moves ++ later) last) :
    Run fs tree moves (moves.foldl act tree) ∧ Run fs (moves.foldl act tree) later last := by
  induction moves generalizing tree with
  | nil => exact ⟨.nil, h⟩
  | cons move moves ih =>
    cases h with
    | cons allowed rest =>
      obtain ⟨hfirst, hrest⟩ := ih rest
      exact ⟨.cons allowed hfirst, hrest⟩

theorem Run.last_eq (h : Run fs tree moves last) : last = moves.foldl act tree := by
  induction h with
  | nil => rfl
  | cons _ _ ih => exact ih

/-- A tree in which a refresh of a node was issued. -/
def bumped (tree : TreeView) (id : NodeId) : TreeView :=
  tree.modify id fun node => { node with generation := node.generation + 1 }

theorem get?_bumped (h : tree.arena.get? id = some node) :
    (tree.bumped id).arena.get? id = some { node with generation := node.generation + 1 } := by
  simp [bumped, TreeView.modify, h]

theorem map_get?_bumped {β : Type} {view : Node → β}
    (hview : ∀ (node : Node) (n : Nat), view { node with generation := n } = view node)
    (tree : TreeView) (id other : NodeId) :
    ((tree.bumped id).arena.get? other).map view = (tree.arena.get? other).map view :=
  Arena.map_get?_modify (fun node => hview node _) other

theorem WellFormed.bumped (h : tree.WellFormed) (id : NodeId) : (tree.bumped id).WellFormed :=
  h.modify id fun _ => rfl

theorem issue_snd (tree : TreeView) (id : NodeId) (recursive : Bool) :
    (tree.issue id recursive).2 = tree.bumped id := by
  unfold issue node? bumped TreeView.modify Arena.modify
  cases tree.arena.get? id <;> rfl

theorem map_get?_expandUpwards {β : Type} {view : Node → β}
    (hview : ∀ node : Node, view { node with expanded := true } = view node) (arena : Arena)
    (height : Nat) (from? : Option NodeId) (id : NodeId) :
    ((expandUpwards arena height from?).get? id).map view = (arena.get? id).map view := by
  fun_induction expandUpwards arena height from? with
  | case1 => rfl
  | case2 => rfl
  | case3 => rfl
  | case4 arena height above node hlive ih => rw [ih, Arena.map_get?_modify hview]

theorem nextId_expandUpwards (arena : Arena) (height : Nat) (from? : Option NodeId) :
    (expandUpwards arena height from?).nextId = arena.nextId := by
  fun_induction expandUpwards arena height from? with
  | case1 => rfl
  | case2 => rfl
  | case3 => rfl
  | case4 arena height above node hlive ih => rw [ih, Arena.nextId_modify]

theorem applyFetched_cases (h : tree.WellFormed) (ticket : Ticket)
    (fetched : Except Failure Listing) :
    (tree.applyFetched ticket fetched).2 = tree ∨
      ∃ node listing children, fetched = .ok listing ∧
        tree.arena.get? ticket.node = some node ∧ node.generation = ticket.generation ∧
        Applied tree (tree.applyFetched ticket fetched).2 ticket.node node listing children := by
  cases hlive : tree.arena.get? ticket.node with
  | none => exact .inl (by simp [applyFetched, node?, hlive])
  | some node =>
    by_cases hgen : node.generation = ticket.generation
    · cases fetched with
      | error e => exact .inl (by simp [applyFetched, node?, hlive, hgen])
      | ok listing =>
        obtain ⟨_, _, children, heq, happlied, _⟩ := applyFetched_current h hlive hgen listing
        refine .inr ⟨node, listing, children, rfl, rfl, hgen, ?_⟩
        rwa [heq]
    · exact .inl (by simp [applyFetched, node?, hlive, hgen])

theorem noteExpandable_eq (tree : TreeView) (id : NodeId) (found : Bool) :
    tree.noteExpandable id found = tree.modify id fun node =>
      { node with expandable := if node.expanded then node.expandable else found } := by
  unfold noteExpandable
  congr 1
  funext node
  obtain ⟨path, handle, parent, children, expanded, expandable, generation⟩ := node
  cases expanded <;> rfl

theorem WellFormed.settle (h : tree.WellFormed) (hlive : tree.arena.get? id = some node) :
    (tree.settle id).WellFormed := by
  refine h.congr (fun _ => map_get?_expandUpwards (fun _ => rfl) ..) rfl fun hs => ?_
  exact .inr ⟨node, Option.some.inj hs ▸ hlive⟩

theorem WellFormed.act_of_live (h : tree.WellFormed)
    (hsettle : ∀ id, move = .settle id → ∃ node, tree.arena.get? id = some node) :
    (tree.act move).WellFormed := by
  cases move with
  | issue id recursive =>
    rw [TreeView.act, issue_snd]
    exact h.bumped id
  | apply ticket fetched =>
    rcases applyFetched_cases h ticket fetched with hsame | ⟨_, _, _, _, hlive, _, happlied⟩
    · rwa [TreeView.act, hsame]
    · exact happlied.wellFormed h hlive
  | note id found =>
    rw [TreeView.act, noteExpandable_eq]
    exact h.modify id fun _ => rfl
  | setExpanded id expanded => exact h.modify id fun _ => rfl
  | useFilter filter => exact h.congr (fun _ => rfl) rfl .inl
  | clear => exact wellFormed_clear tree
  | bindTo top => exact wellFormed_bindTo tree top
  | deselect => exact h.congr (fun _ => rfl) rfl (by simp [TreeView.act])
  | settle id =>
    obtain ⟨node, hlive⟩ := hsettle id rfl
    exact h.settle hlive

theorem WellFormed.act (h : tree.WellFormed) (allowed : tree.Allows fs move) :
    (tree.act move).WellFormed := by
  refine h.act_of_live ?_
  rintro id rfl
  exact allowed

theorem Run.wellFormed (h : Run fs tree moves last) (hw : tree.WellFormed) : last.WellFormed := by
  induction h with
  | nil => exact hw
  | cons allowed _ ih => exact ih (hw.act allowed)

theorem id_bindTo {top : String} (hlive : (tree.bindTo top).1.arena.get? id = some node) :
    id = tree.clear.arena.nextId := by
  by_contra hne
  have hmap : ((tree.bindTo top).1.arena.get? id).map Node.parent =
      ((tree.clear.arena.insert (.placeholder top) none).1.get? id).map Node.parent :=
    Arena.map_get?_modify (fun _ => by rfl) id
  rw [hlive, Arena.get?_insert_of_ne hne] at hmap
  simp [clear] at hmap

theorem get?_bindTo {top : String} (hlive : (tree.bindTo top).1.arena.get? id = some node) :
    node = { Node.fresh (.placeholder top) none with expanded := true } := by
  have hself : (tree.bindTo top).1.arena.get? id =
      ((tree.clear.arena.insert (.placeholder top) none).1.get? id).map
        fun node => { node with expanded := true } := by
    rw [id_bindTo hlive]
    exact Arena.get?_modify_self ..
  rw [hlive, id_bindTo hlive, Arena.get?_insert_self] at hself
  exact Option.some.inj hself

theorem face_bindTo {top : String} (hlive : (tree.bindTo top).1.arena.get? id = some node) :
    node.face = (top, .placeholder top, []) := by
  rw [get?_bindTo hlive]
  rfl

theorem face_act_of_kept (tree : TreeView) (happly : ∀ ticket fetched, move ≠ .apply ticket fetched)
    (hclear : move ≠ .clear) (hbind : ∀ top, move ≠ .bindTo top) :
    ∀ id, ((tree.act move).arena.get? id).map Node.face = (tree.arena.get? id).map Node.face := by
  cases move with
  | issue id recursive =>
    rw [act, issue_snd]
    exact map_get?_bumped (fun _ _ => rfl) tree id
  | apply ticket fetched => exact absurd rfl (happly ticket fetched)
  | note id found =>
    rw [act, noteExpandable_eq]
    exact Arena.map_get?_modify fun _ => rfl
  | setExpanded id expanded => exact Arena.map_get?_modify fun _ => rfl
  | useFilter filter => exact fun _ => rfl
  | clear => exact absurd rfl hclear
  | bindTo top => exact absurd rfl (hbind top)
  | deselect => exact fun _ => rfl
  | settle id => exact map_get?_expandUpwards (fun _ => rfl) _ _ _

theorem face_act (tree : TreeView) (hmove : ∀ ticket fetched, move ≠ .apply ticket fetched) :
    (∀ id, ((tree.act move).arena.get? id).map Node.face = (tree.arena.get? id).map Node.face) ∨
      ∀ id node, (tree.act move).arena.get? id = some node →
        ∃ top, node.face = (top, .placeholder top, []) := by
  cases move with
  | clear => exact .inr fun _ _ hlive => by simp [act, clear] at hlive
  | bindTo top => exact .inr fun _ _ hlive => ⟨top, face_bindTo hlive⟩
  | _ => exact .inl (face_act_of_kept tree hmove (by simp) (by simp))

/-- What a move that the tree allows can do to paths, handles and child lists: it merges a listing
that was fetched for the directory of a node, or it leaves them alone, or all of them go. -/
theorem act_cases (h : tree.WellFormed) (allowed : tree.Allows fs move) :
    (∃ target node listing children handle filter volumes s,
      tree.arena.get? target = some node ∧
      Applied tree (tree.act move) target node listing children ∧
      handle.path = node.handle.path ∧ (fetchVisible fs filter volumes handle s).1 = .ok listing) ∨
    (∀ id, ((tree.act move).arena.get? id).map Node.face = (tree.arena.get? id).map Node.face) ∨
      ∀ id node, (tree.act move).arena.get? id = some node →
        ∃ top, node.face = (top, .placeholder top, []) := by
  by_cases hmove : ∃ ticket fetched, move = .apply ticket fetched
  · obtain ⟨ticket, fetched, rfl⟩ := hmove
    rcases applyFetched_cases h ticket fetched with
      hsame | ⟨node, listing, children, hfetched, hlive, _, happlied⟩
    · exact .inr (.inl fun id => by rw [act, hsame])
    · obtain ⟨hpath, hfrom⟩ := allowed
      obtain ⟨filter, volumes, s, hfetch⟩ := hfrom listing hfetched
      exact .inl ⟨ticket.node, node, listing, children, ticket.handle, filter, volumes, s, hlive,
        happlied, hpath node hlive, hfetch⟩
  · exact .inr (face_act tree fun ticket fetched heq => hmove ⟨ticket, fetched, heq⟩)

end TreeView

def Move.refreshes : Move → Bool
  | .issue _ _ => true
  | .apply _ _ => true
  | .note _ _ => true
  | _ => false

def Move.issued : Move → List NodeId
  | .issue id _ => [id]
  | _ => []

def issuedBy (moves : List Move) : List NodeId := moves.flatMap Move.issued

/-- The nodes whose listing could not be fetched. -/
def Move.failed : Move → List NodeId
  | .apply ticket (.error _) => [ticket.node]
  | _ => []

def failedBy (moves : List Move) : List NodeId := moves.flatMap Move.failed

namespace TreeView
variable {σ : Type} {fs : FileSystem σ} {tree last : TreeView} {move : Move} {moves : List Move}

theorem evolves_bindTo (tree : TreeView) (top : String) :
    Arena.Evolves [] tree.arena (tree.bindTo top).1.arena := by
  have hcleared : Arena.Evolves [] tree.arena tree.clear.arena := .clear tree.arena
  have hbound := hcleared.trans (.insert tree.clear.arena (.placeholder top) none)
  exact hbound.trans (.modify _ _ fun _ => rfl)

theorem evolves_act (h : tree.WellFormed) (move : Move) :
    Arena.Evolves move.issued tree.arena (tree.act move).arena := by
  cases move with
  | issue id recursive =>
    rw [act, issue_snd]
    exact .issue tree.arena id
  | apply ticket fetched =>
    rcases applyFetched_cases h ticket fetched with hsame | ⟨_, _, _, _, hlive, _, happlied⟩
    · rw [act, hsame]
      exact .refl tree.arena
    · exact happlied.evolves hlive
  | note id found =>
    rw [act, noteExpandable_eq]
    exact .modify tree.arena id fun _ => rfl
  | setExpanded id expanded => exact .modify tree.arena id fun _ => rfl
  | useFilter filter => exact .refl tree.arena
  | clear => exact .clear tree.arena
  | bindTo top => exact evolves_bindTo tree top
  | deselect => exact .refl tree.arena
  | settle id =>
    exact .of_stamp (nextId_expandUpwards ..) (map_get?_expandUpwards (fun _ => by rfl) _ _ _)

theorem Run.evolves (h : Run fs tree moves last) (hw : tree.WellFormed) :
    Arena.Evolves (issuedBy moves) tree.arena last.arena := by
  induction h with
  | nil => exact .refl _
  | @cons tree _ move moves allowed _ ih =>
    exact (evolves_act hw move).trans (ih (hw.act allowed))

end TreeView

end LazyTree
