import LazyTree.Proofs.Expansion
import LazyTree.Proofs.Handles

/-!
What a session stays within: its volumes never change, and it uses only filters and binds only tops
that it was given. So every listing was fetched with these volumes and one of these filters. What a
change within a scope keeps of the tree and of the tickets, a session keeps.
-/
namespace LazyTree
variable {σ : Type} {fs : FileSystem σ}

/-- The volumes of a session, the filters it may use and the tops it may bind its tree to. -/
structure Scope where
  volumes : VolumeMap
  Filter : NameFilter → Prop
  Top : String → Prop

namespace Scope

def Lists (scope : Scope) (lister : Lister) : Prop :=
  lister.volumes = scope.volumes ∧ scope.Filter lister.filter

/-- The listing was fetched for the handle at some time. -/
def Fetched (scope : Scope) (fs : FileSystem σ) (handle : Handle) (listing : Listing) : Prop :=
  ∃ filter s, scope.Filter filter ∧
    (fetchVisible fs filter scope.volumes handle s).1 = .ok listing

theorem Lists.fetched {scope : Scope} {lister : Lister} (h : scope.Lists lister) {ticket : Ticket}
    {s : σ} {listing : Listing} (hfetch : (lister.fetch fs ticket s).1 = .ok listing) :
    scope.Fetched fs ticket.handle listing :=
  ⟨lister.filter, s, h.2, h.1 ▸ hfetch⟩

end Scope

def Move.Within (fs : FileSystem σ) (scope : Scope) : Move → Prop
  | .apply ticket (.ok listing) => scope.Fetched fs ticket.handle listing
  | .useFilter filter => scope.Filter filter
  | .bindTo top => scope.Top top
  | _ => True

def Operation.Within (scope : Scope) : Operation → Prop
  | .select path _ => scope.Top (scope.volumes.rootOf (Path.normalize path))
  | .useFilter filter => scope.Filter filter
  | _ => True

def Action.Within (scope : Scope) : Action σ → Prop
  | .operate operation => operation.Within scope
  | _ => True

variable {scope : Scope}

theorem Action.within_of {action : Action σ}
    (htop : ∀ path budget, action = .operate (.select path budget) →
      scope.Top (scope.volumes.rootOf (Path.normalize path)))
    (hfilter : ∀ filter, action = .operate (.useFilter filter) → scope.Filter filter) :
    action.Within scope := by
  cases action with
  | operate operation =>
    cases operation with
    | select path budget => exact htop path budget rfl
    | useFilter filter => exact hfilter filter rfl
    | _ => trivial
  | _ => trivial

theorem Move.within_of_lists {move : Move} (hlists : move.lists = true)
    (happly : ∀ ticket listing, move = .apply ticket (.ok listing) →
      scope.Fetched fs ticket.handle listing) : move.Within fs scope := by
  cases move with
  | apply ticket fetched =>
    cases fetched with
    | error e => trivial
    | ok listing => exact happly ticket listing rfl
  | useFilter filter => cases hlists
  | bindTo top => cases hlists
  | _ => trivial

namespace TreeView
variable {tree last : TreeView} {move : Move} {moves : List Move} {s : σ}

/-- The moves that the refreshes of an operation do not make. -/
def Apart (fs : FileSystem σ) (scope : Scope) (moves : List Move) : Prop :=
  ∀ move ∈ moves, move.refreshes = false → move.Within fs scope

theorem apart_of_refreshes (h : moves.all Move.refreshes = true) : Apart fs scope moves := by
  intro move hmove hapart
  rw [List.all_eq_true.mp h move hmove] at hapart
  cases hapart

theorem apart_of_lists (h : moves.all Move.lists = true) : Apart fs scope moves := by
  intro move hmove hapart
  refine move.within_of_lists (List.all_eq_true.mp h move hmove) ?_
  rintro ticket listing rfl
  cases hapart

theorem Apart.append {later : List Move} (h : Apart fs scope moves) (h' : Apart fs scope later) :
    Apart fs scope (moves ++ later) := fun move hmove =>
  (List.mem_append.mp hmove).elim (h move) (h' move)

theorem Apart.cons (hmove : move.Within fs scope) (h : Apart fs scope moves) :
    Apart fs scope (move :: moves) := fun _ hmem =>
  (List.mem_cons.mp hmem).elim (fun heq _ => heq ▸ hmove) (h _)

theorem apart_of_settling (h : Settling Move.lists moves) : Apart fs scope moves := by
  rcases h with hall | ⟨first, id, rfl, hfirst⟩
  · exact apart_of_lists hall
  · exact (apart_of_lists hfirst).append (.cons trivial (apart_of_lists rfl))

theorem apart_ensureRootMoves {top : String} (htop : scope.Top top) :
    Apart fs scope (tree.ensureRootMoves top) := by
  unfold ensureRootMoves
  split
  · exact apart_of_lists rfl
  · exact .cons htop (apart_of_lists rfl)

theorem apart_binding {top : String} (htop : scope.Top top) :
    Apart fs scope (tree.ensureRootMoves top ++ [.deselect]) :=
  (apart_ensureRootMoves htop).append (.cons trivial (apart_of_lists rfl))

theorem apart_selectMoves (hvolumes : tree.volumes = scope.volumes) {path : String}
    (htop : scope.Top (scope.volumes.rootOf (Path.normalize path))) (budget : Nat) :
    Apart fs scope (selectMoves fs budget path tree s) := by
  unfold selectMoves
  dsimp only
  split
  · exact apart_of_lists rfl
  · exact (apart_ensureRootMoves (hvolumes ▸ htop)).append
      (.cons trivial (apart_of_settling (settling_descendMoves ..)))

theorem apart_expandMoves (id : NodeId) : Apart fs scope (expandMoves fs id tree s) := by
  unfold expandMoves
  split
  · refine .cons trivial (.append (apart_of_refreshes (refreshes_refreshMoves ..)) ?_)
    split
    · exact apart_of_lists rfl
    · split
      · exact apart_of_lists rfl
      · exact .cons trivial (apart_of_lists rfl)
  · exact apart_of_lists rfl

theorem apart_collapseMoves (id : NodeId) : Apart fs scope (collapseMoves tree id) := by
  unfold collapseMoves
  split
  · exact apart_of_lists rfl
  · split
    · exact .cons trivial (apart_of_lists rfl)
    · exact apart_of_lists rfl

theorem apart_useFilterMoves {filter : NameFilter} (hfilter : scope.Filter filter) :
    Apart fs scope (useFilterMoves fs filter tree s) := by
  unfold useFilterMoves
  split
  · exact apart_of_lists rfl
  · refine .cons hfilter ?_
    split
    · exact apart_of_refreshes (refreshes_refreshMoves ..)
    · exact apart_of_lists rfl

theorem apart_moves (hvolumes : tree.volumes = scope.volumes) {operation : Operation}
    (h : operation.Within scope) : Apart fs scope (operation.moves fs tree s) := by
  cases operation with
  | select path budget => exact apart_selectMoves hvolumes h budget
  | refresh id recursive => exact apart_of_refreshes (refreshes_refreshMoves ..)
  | expand id => exact apart_expandMoves id
  | collapse id => exact apart_collapseMoves id
  | useFilter filter => exact apart_useFilterMoves h
  | clear => exact .cons trivial (apart_of_lists rfl)
  | follow changed => exact apart_of_refreshes (refreshes_followMoves ..)
  | followAll changes => exact apart_of_refreshes (refreshes_followAllMoves ..)

theorem lists_act_of_apart (h : scope.Lists tree.lister) (hmove : move.Within fs scope)
    (hapart : move.refreshes = false) : scope.Lists (tree.act move).lister := by
  cases move with
  | issue id recursive => cases hapart
  | apply ticket fetched => cases hapart
  | note id found => cases hapart
  | useFilter filter => exact ⟨h.1, hmove⟩
  | _ => exact h

theorem mem_checkMoves {lister : Lister} {targets : List (NodeId × Handle)}
    (h : move ∈ checkMoves fs lister targets s) : ∃ id found, move = .note id found := by
  fun_induction checkMoves fs lister targets s with
  | case1 => cases h
  | case2 id handle targets s found s' _ ih =>
    cases List.mem_cons.mp h with
    | inl heq => exact ⟨id, found, heq⟩
    | inr hmem => exact ih hmem
  | case3 _ _ _ _ _ _ _ ih => exact ih h

theorem mem_appliedMoves {lister : Lister} {id : NodeId} {always : Bool}
    {result : Except Failure Application × TreeView}
    (h : move ∈ appliedMoves fs lister id always result s) : ∃ id found, move = .note id found := by
  unfold appliedMoves at h
  split at h
  · split at h
    · exact mem_checkMoves h
    · cases h
  · cases h

theorem within_visitMoves {lister : Lister} (h : scope.Lists lister) {id : NodeId}
    {recursive always : Bool} (hmove : move ∈ visitMoves fs lister id recursive always tree s) :
    move.Within fs scope := by
  have hrefreshes := refreshes_visitMoves fs lister id recursive always tree s
  refine move.within_of_lists
    (lists_of_refreshes (List.all_eq_true.mp hrefreshes move hmove)) ?_
  rintro ticket listing rfl
  unfold visitMoves at hmove
  split at hmove
  · cases hmove
  · rename_i issued bumped _
    dsimp only at hmove
    cases List.mem_cons.mp hmove with
    | inl heq => cases heq
    | inr hmove =>
      cases List.mem_cons.mp hmove with
      | inl heq =>
        obtain ⟨rfl, hfetch⟩ := Move.apply.inj heq
        exact h.fetched hfetch.symm
      | inr hchecks =>
        obtain ⟨_, _, hnote⟩ := mem_appliedMoves hchecks
        cases hnote

/-- The visits of an operation list within the scope, since only a filter of the scope takes the
place of another. -/
theorem Course.within (h : Course fs tree moves last) (hw : tree.WellFormed)
    (hlister : scope.Lists tree.lister) (hapart : Apart fs scope moves) :
    (∀ move ∈ moves, move.Within fs scope) ∧ scope.Lists last.lister := by
  induction h with
  | nil => exact ⟨by simp, hlister⟩
  | @visit tree last moves id recursive always s rest ih =>
    have hkept := lister_visit hw fs tree.lister id recursive always s
    obtain ⟨hrest, hlast⟩ := ih ((visit_run ..).wellFormed hw) (hkept.symm ▸ hlister)
      fun move hmove => hapart move (List.mem_append_right _ hmove)
    refine ⟨fun move hmove => ?_, hlast⟩
    cases List.mem_append.mp hmove with
    | inl hmove => exact within_visitMoves hlister hmove
    | inr hmove => exact hrest move hmove
  | @move tree last move moves apart allowed rest ih =>
    have hmove := hapart move List.mem_cons_self apart
    obtain ⟨hrest, hlast⟩ := ih (hw.act allowed) (lists_act_of_apart hlister hmove apart)
      fun move hmem => hapart move (List.mem_cons_of_mem _ hmem)
    exact ⟨List.forall_mem_cons.mpr ⟨hmove, hrest⟩, hlast⟩

end TreeView

/-- What each change within a scope keeps: `I` of the tree, and `T` of the tree and any ticket. An
issued ticket has `T`, only tickets that have it are applied, and only live nodes are settled on. -/
structure Scope.Keeps (scope : Scope) (fs : FileSystem σ) (I : TreeView → Prop)
    (T : TreeView → Ticket → Prop) : Prop where
  issue : ∀ {tree id node} recursive, tree.WellFormed → I tree →
    tree.arena.get? id = some node →
    T (tree.bumped id) ⟨id, node.generation + 1, node.handle, recursive⟩
  act : ∀ {tree move}, tree.WellFormed → I tree → move.Within fs scope →
    (∀ ticket fetched, move = .apply ticket fetched → T tree ticket) →
    (∀ id, move = .settle id → ∃ node, tree.arena.get? id = some node) →
    I (tree.act move) ∧ ∀ ticket, T tree ticket → T (tree.act move) ticket

namespace Scope.Keeps
variable {I : TreeView → Prop} {T : TreeView → Ticket → Prop} {tree last : TreeView}
variable {moves : List Move}

theorem notes (h : scope.Keeps fs I T) (hw : tree.WellFormed) (hI : I tree)
    (hmoves : ∀ move ∈ moves, ∃ id found, move = .note id found) :
    I (moves.foldl TreeView.act tree) ∧
      ∀ ticket, T tree ticket → T (moves.foldl TreeView.act tree) ticket := by
  induction moves generalizing tree with
  | nil => exact ⟨hI, fun _ => id⟩
  | cons move moves ih =>
    obtain ⟨⟨id, found, rfl⟩, hrest⟩ := List.forall_mem_cons.mp hmoves
    have hnote : (Move.note id found).Within fs scope := trivial
    obtain ⟨hI', hT'⟩ := h.act hw hI hnote (by simp) (by simp)
    obtain ⟨hI'', hT''⟩ := ih (hw.act_of_live (by simp)) hI' hrest
    exact ⟨hI'', fun ticket hticket => hT'' ticket (hT' ticket hticket)⟩

theorem fetched (h : scope.Keeps fs I T) (hw : tree.WellFormed) (hI : I tree)
    (hlister : scope.Lists tree.lister) {id : NodeId} {node : Node}
    (hlive : tree.arena.get? id = some node) (recursive : Bool) (s : σ) :
    let ticket : Ticket := ⟨id, node.generation + 1, node.handle, recursive⟩
    let applied := (tree.bumped id).act (.apply ticket (tree.lister.fetch fs ticket s).1)
    T (tree.bumped id) ticket ∧ applied.WellFormed ∧ I applied ∧
      ∀ other, T tree other → T applied other := by
  intro ticket applied
  have hissue : tree.act (.issue id recursive) = tree.bumped id := TreeView.issue_snd ..
  have hwithin : (Move.issue id recursive).Within fs scope := trivial
  obtain ⟨hIissue, hTissue⟩ := h.act hw hI hwithin (by simp) (by simp)
  rw [hissue] at hIissue hTissue
  have hticket : T (tree.bumped id) ticket := h.issue recursive hw hI hlive
  have hfetch : (Move.apply ticket (tree.lister.fetch fs ticket s).1).Within fs scope := by
    refine Move.within_of_lists rfl ?_
    intro _ listing heq
    obtain ⟨rfl, hfetch⟩ := Move.apply.inj heq
    exact hlister.fetched hfetch
  obtain ⟨hIapply, hTapply⟩ := h.act (hw.bumped id) hIissue hfetch
    (fun _ _ heq => (Move.apply.inj heq).1 ▸ hticket) (by simp)
  exact ⟨hticket, (hw.bumped id).act_of_live (by simp), hIapply,
    fun other hT => hTapply other (hTissue other hT)⟩

theorem visit (h : scope.Keeps fs I T) (hw : tree.WellFormed) (hI : I tree)
    (hlister : scope.Lists tree.lister) (id : NodeId) (recursive always : Bool) (s : σ) :
    let visited := (TreeView.visit fs tree.lister id recursive always tree s).tree
    I visited ∧ ∀ ticket, T tree ticket → T visited ticket := by
  intro visited
  have htree : visited = _ :=
    (TreeView.visit_run fs tree.lister id recursive always tree s).last_eq
  rw [htree]
  unfold TreeView.visitMoves
  cases hlive : tree.arena.get? id with
  | none =>
    rw [TreeView.issue_of_dead hlive]
    exact ⟨hI, fun _ hT => hT⟩
  | some node =>
    have hissue : tree.act (.issue id recursive) = tree.bumped id := TreeView.issue_snd ..
    obtain ⟨_, hwapply, hIapply, hTapply⟩ := h.fetched hw hI hlister hlive recursive s
    obtain ⟨hInotes, hTnotes⟩ := h.notes hwapply hIapply fun move hmove =>
      TreeView.mem_appliedMoves hmove
    rw [TreeView.issue_of_live hlive]
    simp only [List.foldl_cons, hissue]
    exact ⟨hInotes, fun ticket hT => hTnotes ticket (hTapply ticket hT)⟩

theorem course (h : scope.Keeps fs I T) (hcourse : TreeView.Course fs tree moves last)
    (hw : tree.WellFormed) (hI : I tree) (hlister : scope.Lists tree.lister)
    (hapart : TreeView.Apart fs scope moves) :
    I last ∧ ∀ ticket, T tree ticket → T last ticket := by
  induction hcourse with
  | nil => exact ⟨hI, fun _ => id⟩
  | @visit tree last moves id recursive always s rest ih =>
    have hkept := TreeView.lister_visit hw fs tree.lister id recursive always s
    obtain ⟨hIvisit, hTvisit⟩ := h.visit hw hI hlister id recursive always s
    obtain ⟨hIlast, hTlast⟩ := ih ((TreeView.visit_run ..).wellFormed hw) hIvisit
      (hkept.symm ▸ hlister) fun move hmove => hapart move (List.mem_append_right _ hmove)
    exact ⟨hIlast, fun ticket hticket => hTlast ticket (hTvisit ticket hticket)⟩
  | @move tree last move moves apart allowed rest ih =>
    have hwithin := hapart move List.mem_cons_self apart
    obtain ⟨hImove, hTmove⟩ := h.act hw hI hwithin (by rintro ticket fetched rfl; cases apart)
      (by rintro id rfl; exact allowed)
    obtain ⟨hIlast, hTlast⟩ := ih (hw.act allowed) hImove
      (TreeView.lists_act_of_apart hlister hwithin apart)
      fun move hmem => hapart move (List.mem_cons_of_mem _ hmem)
    exact ⟨hIlast, fun ticket hticket => hTlast ticket (hTmove ticket hticket)⟩

end Scope.Keeps

namespace Session
variable {x : Session σ}

structure Within (fs : FileSystem σ) (scope : Scope) (x : Session σ) : Prop where
  lister : scope.Lists x.tree.lister
  listers : ∀ lister ∈ x.listers, scope.Lists lister
  results : ∀ {ticket fetched}, (ticket, fetched) ∈ x.results → ticket ∈ x.tickets ∧
    ∀ listing, fetched = .ok listing → scope.Fetched fs ticket.handle listing

theorem within_start {filter : NameFilter} (hfilter : scope.Filter filter) (world : σ) :
    (start filter scope.volumes world).Within fs scope where
  lister := ⟨rfl, hfilter⟩
  listers := by simp [start]
  results := by simp [start]

theorem Within.of_result (h : x.Within fs scope) {k : Nat} {ticket : Ticket}
    {fetched : Except Failure Listing} (hk : x.results[k]? = some (ticket, fetched)) :
    (Move.apply ticket fetched).Within fs scope := by
  cases fetched with
  | error e => trivial
  | ok listing => exact (h.results (List.mem_of_getElem? hk)).2 listing rfl

theorem within_moves (hw : x.tree.WellFormed) (h : x.Within fs scope) {action : Action σ}
    (haction : action.Within scope) : ∀ move ∈ x.moves fs action, move.Within fs scope := by
  cases action with
  | operate operation =>
    exact ((operation.course hw fs x.world).within hw h.lister
      (TreeView.apart_moves h.lister.1 haction)).1
  | issue id recursive =>
    simp only [moves]
    split
    · simp [Move.Within]
    · simp
  | apply k =>
    simp only [moves]
    split
    · rename_i hk
      simpa using h.of_result hk
    · simp
  | applyFailure i failure =>
    simp only [moves]
    split
    · simp [Move.Within]
    · simp
  | _ => simp [moves]

theorem lists_act (hw : x.tree.WellFormed) (h : x.Within fs scope) {action : Action σ}
    (haction : action.Within scope) : scope.Lists (x.act fs action).tree.lister := by
  have hkept (move : Move) (hmove : move.refreshes = true) :
      scope.Lists (x.tree.act move).lister := by
    have hsame : (x.tree.act move).lister = x.tree.lister :=
      congrArg Prod.snd (TreeView.frame_act hw hmove)
    rw [hsame]
    exact h.lister
  cases action with
  | operate operation =>
    exact ((operation.course hw fs x.world).within hw h.lister
      (TreeView.apart_moves h.lister.1 haction)).2
  | issue id recursive =>
    have hissued := hkept (.issue id recursive) rfl
    simp only [act]
    rw [TreeView.act] at hissued
    generalize x.tree.issue id recursive = result at hissued ⊢
    obtain ⟨_ | ticket, tree⟩ := result <;> exact hissued
  | apply k =>
    simp only [act]
    split
    · exact hkept (.apply _ _) rfl
    · exact h.lister
  | applyFailure i failure =>
    simp only [act]
    split
    · exact hkept (.apply _ _) rfl
    · exact h.lister
  | fetch i j =>
    simp only [act]
    split <;> exact h.lister
  | _ => exact h.lister

theorem within_act (hw : x.tree.WellFormed) (h : x.Within fs scope) {action : Action σ}
    (haction : action.Within scope) : (x.act fs action).Within fs scope where
  lister := lists_act hw h haction
  listers := by
    cases action with
    | keepLister =>
      intro lister hmem
      cases List.mem_append.mp hmem with
      | inl hmem => exact h.listers lister hmem
      | inr hmem => exact List.mem_singleton.mp hmem ▸ h.lister
    | issue id recursive =>
      simp only [act]
      split <;> exact h.listers
    | fetch i j =>
      simp only [act]
      split <;> exact h.listers
    | apply k =>
      simp only [act]
      split <;> exact h.listers
    | applyFailure i failure =>
      simp only [act]
      split <;> exact h.listers
    | _ => exact h.listers
  results := by
    intro ticket fetched hmem
    suffices hresult : ticket ∈ x.tickets ∧
        ∀ listing, fetched = .ok listing → scope.Fetched fs ticket.handle listing from
      ⟨tickets_subset_act fs x action ticket hresult.1, hresult.2⟩
    cases action with
    | fetch i j =>
      simp only [act] at hmem
      split at hmem
      · rename_i issued lister hi hj
        cases List.mem_append.mp hmem with
        | inl hmem => exact h.results hmem
        | inr hmem =>
          obtain ⟨rfl, rfl⟩ := Prod.mk.inj (List.mem_singleton.mp hmem)
          exact ⟨List.mem_of_getElem? hi, fun listing hfetch =>
            (h.listers lister (List.mem_of_getElem? hj)).fetched hfetch⟩
      · exact h.results hmem
    | _ =>
      rw [results_of_not_fetch (by simp)] at hmem
      exact h.results hmem

theorem within_run (hw : x.tree.WellFormed) (h : x.Within fs scope) {actions : List (Action σ)}
    (hactions : ∀ action ∈ actions, action.Within scope) : (x.run fs actions).Within fs scope := by
  induction actions generalizing x with
  | nil => exact h
  | cons action actions ih =>
    obtain ⟨haction, hrest⟩ := List.forall_mem_cons.mp hactions
    exact ih ((effect_act fs x action).wellFormed hw) (within_act hw h haction) hrest

theorem volumes_run (fs : FileSystem σ) (filter : NameFilter) (volumes : VolumeMap) (world : σ)
    (actions : List (Action σ)) :
    ((start filter volumes world).run fs actions).tree.volumes = volumes := by
  let scope : Scope := ⟨volumes, fun _ => True, fun _ => True⟩
  have hstart : (start filter volumes world).Within fs scope := within_start trivial world
  have hactions : ∀ action ∈ actions, action.Within scope := fun action _ =>
    action.within_of (fun _ _ _ => trivial) fun _ _ => trivial
  exact (within_run (wellFormed_start filter volumes world) hstart hactions).lister.1

/-- A session that is well-formed, stays within the scope and has what each change keeps. -/
structure Keeping (fs : FileSystem σ) (scope : Scope) (I : TreeView → Prop)
    (T : TreeView → Ticket → Prop) (x : Session σ) : Prop where
  wellFormed : x.tree.WellFormed
  within : x.Within fs scope
  tree : I x.tree
  tickets : ∀ ticket ∈ x.tickets, T x.tree ticket

variable {I : TreeView → Prop} {T : TreeView → Ticket → Prop}

theorem keeping_start {filter : NameFilter} (hfilter : scope.Filter filter)
    (hI : I (.unbound filter scope.volumes)) (world : σ) :
    (start filter scope.volumes world).Keeping fs scope I T where
  wellFormed := wellFormed_start filter scope.volumes world
  within := within_start hfilter world
  tree := hI
  tickets := by simp [start]

theorem Keeping.change (h : x.Keeping fs scope I T) (hkeeps : scope.Keeps fs I T)
    {action : Action σ} (haction : action.Within scope) :
    I (x.act fs action).tree ∧ ∀ ticket, T x.tree ticket → T (x.act fs action).tree ticket := by
  have hwithin := within_moves h.wellFormed h.within haction
  have happly {ticket : Ticket} (hticket : ticket ∈ x.tickets) (fetched : Except Failure Listing)
      (hmove : (Move.apply ticket fetched).Within fs scope) :
      I (x.tree.applyFetched ticket fetched).2 ∧
        ∀ other, T x.tree other → T (x.tree.applyFetched ticket fetched).2 other := by
    have hknown : ∀ issued result, Move.apply ticket fetched = .apply issued result →
        T x.tree issued := by
      intro issued result heq
      obtain ⟨rfl, _⟩ := Move.apply.inj heq
      exact h.tickets ticket hticket
    exact hkeeps.act h.wellFormed h.tree hmove hknown (by simp)
  cases action with
  | operate operation =>
    exact hkeeps.course (operation.course h.wellFormed fs x.world) h.wellFormed h.tree
      h.within.lister (TreeView.apart_moves h.within.lister.1 haction)
  | issue id recursive =>
    have hissue : (Move.issue id recursive).Within fs scope := trivial
    have hissued := hkeeps.act h.wellFormed h.tree hissue (by simp) (by simp)
    simp only [Session.act]
    rw [TreeView.act] at hissued
    generalize x.tree.issue id recursive = result at hissued ⊢
    obtain ⟨_ | ticket, tree⟩ := result <;> exact hissued
  | apply k =>
    simp only [Session.act]
    split
    · rename_i ticket fetched hk
      exact happly (h.within.results (List.mem_of_getElem? hk)).1 fetched (h.within.of_result hk)
    · exact ⟨h.tree, fun _ hT => hT⟩
  | applyFailure i failure =>
    simp only [Session.act]
    split
    · rename_i ticket hi
      exact happly (List.mem_of_getElem? hi) (.error failure) trivial
    · exact ⟨h.tree, fun _ hT => hT⟩
  | fetch i j =>
    simp only [Session.act]
    split <;> exact ⟨h.tree, fun _ hT => hT⟩
  | _ => exact ⟨h.tree, fun _ hT => hT⟩

theorem Keeping.act (h : x.Keeping fs scope I T) (hkeeps : scope.Keeps fs I T) {action : Action σ}
    (haction : action.Within scope) : (x.act fs action).Keeping fs scope I T where
  wellFormed := (effect_act fs x action).wellFormed h.wellFormed
  within := within_act h.wellFormed h.within haction
  tree := (h.change hkeeps haction).1
  tickets := by
    have hold : ∀ ticket ∈ x.tickets, T (x.act fs action).tree ticket := fun ticket hticket =>
      (h.change hkeeps haction).2 ticket (h.tickets ticket hticket)
    cases action with
    | issue id recursive =>
      cases hlive : x.tree.arena.get? id with
      | none => simpa [Session.act, TreeView.issue_of_dead hlive] using hold
      | some node =>
        have hissued := hkeeps.issue recursive h.wellFormed h.tree hlive
        simp only [Session.act, TreeView.issue_of_live hlive] at hold ⊢
        intro ticket hticket
        cases List.mem_append.mp hticket with
        | inl hticket => exact hold ticket hticket
        | inr hticket => exact List.mem_singleton.mp hticket ▸ hissued
    | _ =>
      rw [tickets_of_not_issue (by simp)]
      exact hold

/-- What each change within a scope keeps, a session within it keeps. -/
theorem Keeping.run (h : x.Keeping fs scope I T) (hkeeps : scope.Keeps fs I T)
    {actions : List (Action σ)} (hactions : ∀ action ∈ actions, action.Within scope) :
    (x.run fs actions).Keeping fs scope I T := by
  induction actions generalizing x with
  | nil => exact h
  | cons action actions ih =>
    obtain ⟨haction, hrest⟩ := List.forall_mem_cons.mp hactions
    exact ih (h.act hkeeps haction) hrest

end Session

end LazyTree
