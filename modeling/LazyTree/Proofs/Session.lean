import LazyTree.Proofs.Trace

/-!
Sessions: what a user of a tree can do with it, in any order and for as long as it takes. Tickets,
listers and fetched listings are kept, so that any of them may be used late or more than once.
-/
namespace LazyTree
variable {σ : Type} {fs : FileSystem σ}

/-- A filesystem in which every directory holds two directories, listed in no order. -/
def FileSystem.endless : FileSystem Unit :=
  .ofListing
    (fun s dir =>
      (.ok [⟨Path.child dir "b", "b", true, false⟩, ⟨Path.child dir "A", "A", true, false⟩], s))
    (fun s path => (.ok (.real path), s))

/-- A filesystem in which a hidden directory lies below two others. -/
def FileSystem.veiled : FileSystem Unit :=
  .ofListing
    (fun s dir =>
      (.ok (if dir = "/a" then [.directory "/a/b"]
        else if dir = "/a/b" then [.directory "/a/b/.c"]
        else []), s))
    (fun s path => (.ok (.real path), s))

/-- An operation on a tree. Selecting a path is `TreeView.select` for its budget. -/
inductive Operation where
  | select (path : String) (budget : Nat)
  | refresh (id : NodeId) (recursive : Bool)
  | expand (id : NodeId)
  | collapse (id : NodeId)
  | useFilter (filter : NameFilter)
  | clear
  | follow (changed : String)
  | followAll (changes : Touched)

namespace Operation

def perform (fs : FileSystem σ) (tree : TreeView) (s : σ) : Operation → TreeView × σ
  | select path budget => (tree.selectWithin fs budget path s).2
  | refresh id recursive => (tree.refresh fs id recursive s).2
  | expand id => (tree.expand fs id s).2
  | collapse id => ((tree.collapse id).2, s)
  | useFilter filter => (tree.useFilter fs filter s).2
  | clear => (tree.clear, s)
  | follow changed => (tree.follow fs changed s).2
  | followAll changes => (tree.followAll fs changes s).2

def moves (fs : FileSystem σ) (tree : TreeView) (s : σ) : Operation → List Move
  | select path budget => tree.selectMoves fs budget path s
  | refresh id recursive => tree.refreshMoves fs id recursive false s
  | expand id => tree.expandMoves fs id s
  | collapse id => tree.collapseMoves id
  | useFilter filter => tree.useFilterMoves fs filter s
  | clear => [.clear]
  | follow changed => tree.followMoves fs changed s
  | followAll changes => tree.followAllMoves fs changes s

theorem trail {tree : TreeView} (h : tree.WellFormed) (fs : FileSystem σ) (s : σ)
    (operation : Operation) :
    TreeView.Trail fs tree s (operation.moves fs tree s) (operation.perform fs tree s).1
      (operation.perform fs tree s).2 := by
  cases operation with
  | select path budget => exact TreeView.selectWithin_trail h fs budget path s
  | refresh id recursive => exact TreeView.refresh_trail h fs id recursive s
  | expand id => exact TreeView.expand_trail h fs id s
  | collapse id => exact TreeView.collapse_trail fs tree id s
  | useFilter filter => exact TreeView.useFilter_trail h fs filter s
  | clear => exact .single rfl trivial
  | follow changed => exact TreeView.follow_trail h fs changed s
  | followAll changes => exact TreeView.followAll_trail h fs changes s

theorem course {tree : TreeView} (h : tree.WellFormed) (fs : FileSystem σ) (s : σ)
    (operation : Operation) :
    TreeView.Course fs tree (operation.moves fs tree s) (operation.perform fs tree s).1 :=
  (operation.trail h fs s).course

theorem run {tree : TreeView} (h : tree.WellFormed) (fs : FileSystem σ) (s : σ)
    (operation : Operation) :
    TreeView.Run fs tree (operation.moves fs tree s) (operation.perform fs tree s).1 :=
  (operation.course h fs s).run

end Operation

/-- A step of a session. Tickets, listers and results are named by the order they were got in. -/
inductive Action (σ : Type) where
  | operate (operation : Operation)
  | issue (id : NodeId) (recursive : Bool)
  | keepLister
  | fetch (ticket lister : Nat)
  | apply (result : Nat)
  | applyFailure (ticket : Nat) (failure : Failure)
  /-- The filesystem changes by itself. -/
  | drift (world : σ)

structure Session (σ : Type) where
  tree : TreeView
  world : σ
  tickets : List Ticket
  listers : List Lister
  /-- Every ticket that was fetched for, with what the fetch gave. -/
  results : List (Ticket × Except Failure Listing)

namespace Session
variable {x : Session σ}

def start (filter : NameFilter) (volumes : VolumeMap) (world : σ) : Session σ :=
  ⟨.unbound filter volumes, world, [], [], []⟩

def act (fs : FileSystem σ) (x : Session σ) : Action σ → Session σ
  | .operate operation =>
    let (tree, world) := operation.perform fs x.tree x.world
    { x with tree := tree, world := world }
  | .issue id recursive =>
    match x.tree.issue id recursive with
    | (.ok ticket, tree) => { x with tree := tree, tickets := x.tickets ++ [ticket] }
    | (.error _, tree) => { x with tree := tree }
  | .keepLister => { x with listers := x.listers ++ [x.tree.lister] }
  | .fetch i j =>
    match x.tickets[i]?, x.listers[j]? with
    | some ticket, some lister =>
      let (fetched, world) := lister.fetch fs ticket x.world
      { x with world := world, results := x.results ++ [(ticket, fetched)] }
    | _, _ => x
  | .apply k =>
    match x.results[k]? with
    | some (ticket, fetched) => { x with tree := (x.tree.applyFetched ticket fetched).2 }
    | none => x
  | .applyFailure i failure =>
    match x.tickets[i]? with
    | some ticket => { x with tree := (x.tree.applyFetched ticket (.error failure)).2 }
    | none => x
  | .drift world => { x with world := world }

def run (fs : FileSystem σ) (x : Session σ) (actions : List (Action σ)) : Session σ :=
  actions.foldl (act fs) x

def moves (fs : FileSystem σ) (x : Session σ) : Action σ → List Move
  | .operate operation => operation.moves fs x.tree x.world
  | .issue id recursive => if x.tree.holds id then [.issue id recursive] else []
  | .apply k =>
    match x.results[k]? with
    | some (ticket, fetched) => [.apply ticket fetched]
    | none => []
  | .applyFailure i failure =>
    match x.tickets[i]? with
    | some ticket => [.apply ticket (.error failure)]
    | none => []
  | _ => []

theorem moves_apply {k : Nat} {ticket : Ticket} {fetched : Except Failure Listing}
    (h : x.results[k]? = some (ticket, fetched)) :
    x.moves fs (.apply k) = [.apply ticket fetched] := by
  simp only [moves, h]

def log (fs : FileSystem σ) (x : Session σ) : List (Action σ) → List Move
  | [] => []
  | action :: actions => x.moves fs action ++ log fs (x.act fs action) actions

/-- How one action changes the tree: not at all, by an operation, by a ticket that is issued or by
one that is applied. -/
inductive Effect (fs : FileSystem σ) (x : Session σ) : List Move → TreeView → Prop where
  | none : Effect fs x [] x.tree
  | operated (operation : Operation) :
    Effect fs x (operation.moves fs x.tree x.world) (operation.perform fs x.tree x.world).1
  | issued {id : NodeId} {node : Node} (recursive : Bool)
      (live : x.tree.arena.get? id = some node) :
    Effect fs x [.issue id recursive] (x.tree.act (.issue id recursive))
  | applied {ticket : Ticket} {fetched : Except Failure Listing}
      (known : (ticket, fetched) ∈ x.results ∨ ticket ∈ x.tickets ∧ ∃ e, fetched = .error e) :
    Effect fs x [.apply ticket fetched] (x.tree.act (.apply ticket fetched))

theorem effect_act (fs : FileSystem σ) (x : Session σ) (action : Action σ) :
    Effect fs x (x.moves fs action) (x.act fs action).tree := by
  cases action with
  | operate operation => exact .operated operation
  | issue id recursive =>
    cases hlive : x.tree.arena.get? id with
    | none =>
      have hdead : x.tree.holds id = false := by simp [TreeView.holds, Arena.contains, hlive]
      simp only [moves, act, hdead, TreeView.issue_of_dead hlive]
      exact .none
    | some node =>
      have hholds : x.tree.holds id = true := Arena.contains_iff.mpr ⟨node, hlive⟩
      have heffect : Effect fs x [.issue id recursive] _ := .issued recursive hlive
      simpa only [moves, act, hholds, TreeView.act, TreeView.issue_of_live hlive, if_true]
        using heffect
  | keepLister => exact .none
  | fetch i j =>
    simp only [moves, act]
    split <;> exact .none
  | apply k =>
    simp only [moves, act]
    split
    · rename_i ticket fetched hk
      exact .applied (.inl (List.mem_of_getElem? hk))
    · exact .none
  | applyFailure i failure =>
    simp only [moves, act]
    split
    · rename_i ticket hi
      exact .applied (.inr ⟨List.mem_of_getElem? hi, failure, rfl⟩)
    · exact .none
  | drift world => exact .none

theorem Effect.wellFormed {moves : List Move} {tree : TreeView} (h : Effect fs x moves tree)
    (hw : x.tree.WellFormed) : tree.WellFormed := by
  cases h with
  | none => exact hw
  | operated operation => exact (operation.run hw fs x.world).wellFormed hw
  | issued recursive live => exact hw.act_of_live (by simp)
  | applied known => exact hw.act_of_live (by simp)

theorem Effect.evolves {moves : List Move} {tree : TreeView} (h : Effect fs x moves tree)
    (hw : x.tree.WellFormed) : Arena.Evolves (issuedBy moves) x.tree.arena tree.arena := by
  cases h with
  | none => exact .refl _
  | operated operation => exact (operation.run hw fs x.world).evolves hw
  | issued recursive live => exact TreeView.evolves_act hw (.issue _ recursive)
  | applied known => exact TreeView.evolves_act hw (.apply _ _)

theorem Effect.eq_foldl {moves : List Move} {tree : TreeView} (h : Effect fs x moves tree)
    (hw : x.tree.WellFormed) : tree = moves.foldl TreeView.act x.tree := by
  cases h with
  | none => rfl
  | operated operation => exact (operation.run hw fs x.world).last_eq
  | issued recursive live => rfl
  | applied known => rfl

theorem Effect.wellFormed_within {moves first later : List Move} {tree : TreeView}
    (h : Effect fs x moves tree) (hw : x.tree.WellFormed) (hmoves : moves = first ++ later) :
    (first.foldl TreeView.act x.tree).WellFormed := by
  have hsingle {move : Move} (hafter : (x.tree.act move).WellFormed)
      (hmoves : [move] = first ++ later) : (first.foldl TreeView.act x.tree).WellFormed := by
    rcases List.append_eq_singleton_iff.mp hmoves.symm with ⟨rfl, _⟩ | ⟨rfl, _⟩
    · exact hw
    · exact hafter
  cases h with
  | none =>
    obtain ⟨rfl, _⟩ := List.append_eq_nil_iff.mp hmoves.symm
    exact hw
  | operated operation =>
    have hrun := operation.run hw fs x.world
    rw [hmoves] at hrun
    exact hrun.split.1.wellFormed hw
  | issued recursive live => exact hsingle (hw.act_of_live (by simp)) hmoves
  | applied known => exact hsingle (hw.act_of_live (by simp)) hmoves

theorem wellFormed_run (h : x.tree.WellFormed) (fs : FileSystem σ) (actions : List (Action σ)) :
    (x.run fs actions).tree.WellFormed := by
  induction actions generalizing x with
  | nil => exact h
  | cons action actions ih => exact ih ((effect_act fs x action).wellFormed h)

theorem evolves_run (h : x.tree.WellFormed) (fs : FileSystem σ) (actions : List (Action σ)) :
    Arena.Evolves (issuedBy (x.log fs actions)) x.tree.arena (x.run fs actions).tree.arena := by
  induction actions generalizing x with
  | nil => exact .refl _
  | cons action actions ih =>
    have heffect := effect_act fs x action
    rw [log, issuedBy, List.flatMap_append]
    exact (heffect.evolves h).trans (ih (heffect.wellFormed h))

theorem run_append (fs : FileSystem σ) (x : Session σ) (actions later : List (Action σ)) :
    x.run fs (actions ++ later) = (x.run fs actions).run fs later := List.foldl_append

theorem run_take_succ {actions : List (Action σ)} {n : Nat} {action : Action σ}
    (h : actions[n]? = some action) (fs : FileSystem σ) (x : Session σ) :
    x.run fs (actions.take (n + 1)) = (x.run fs (actions.take n)).act fs action := by
  rw [List.take_add_one, h, run_append]
  rfl

theorem forall_run_take (fs : FileSystem σ) {motive : Session σ → Prop}
    {actions : List (Action σ)} (hx : motive x)
    (hact : ∀ n action, actions[n]? = some action → motive (x.run fs (actions.take n)) →
      motive ((x.run fs (actions.take n)).act fs action)) (n : Nat) :
    motive (x.run fs (actions.take n)) := by
  induction n with
  | zero => exact hx
  | succ n ih =>
    cases haction : actions[n]? with
    | none =>
      rw [List.take_add_one, haction]
      simpa using ih
    | some action =>
      rw [run_take_succ haction]
      exact hact n action haction ih

theorem log_append (fs : FileSystem σ) (x : Session σ) (actions later : List (Action σ)) :
    x.log fs (actions ++ later) = x.log fs actions ++ (x.run fs actions).log fs later := by
  induction actions generalizing x with
  | nil => rfl
  | cons action actions ih =>
    rw [List.cons_append, log, log, ih, List.append_assoc]
    rfl

theorem run_eq_foldl (hw : x.tree.WellFormed) (fs : FileSystem σ) (actions : List (Action σ)) :
    (x.run fs actions).tree = (x.log fs actions).foldl TreeView.act x.tree := by
  induction actions generalizing x with
  | nil => rfl
  | cons action actions ih =>
    rw [log, List.foldl_append, ← (effect_act fs x action).eq_foldl hw]
    exact ih ((effect_act fs x action).wellFormed hw)

theorem wellFormed_start (filter : NameFilter) (volumes : VolumeMap) (world : σ) :
    (start filter volumes world).tree.WellFormed := TreeView.wellFormed_unbound filter volumes

end Session

end LazyTree
