import LazyTree.Proofs.Asking
import LazyTree.Proofs.Descent

/-!
What a session asks of its filesystem. A request is made for the handle of a ticket or of a listed
node, so it is for a path that leads down from a top of the scope; no shortcut is asked for. What
the requests for such paths keep of the filesystem's state, a session keeps.
-/
namespace LazyTree
variable {σ : Type} {fs : FileSystem σ} {scope : Scope} {P Q : String → Prop} {W : σ → Prop}

/-- Requests for paths with `Q` keep `W` of the state. -/
structure FileSystem.Preserves (fs : FileSystem σ) (Q : String → Prop) (W : σ → Prop) : Prop where
  enumerate : ∀ {s dir}, Q dir → W s → W (fs.enumerate s dir).2
  resolve : ∀ {s path}, Q path → W s → W (fs.resolve s path).2
  holdsDirectory : ∀ {s path} filter, Q path → W s → W (fs.holdsDirectory s path filter).2
  sameDirectory : ∀ {s} a b, W s → W (fs.sameDirectory s a b).2

/-- A filesystem that notes every request it answers, the newest first. -/
def FileSystem.recorded (fs : FileSystem σ) : FileSystem (σ × List Request) where
  enumerate s dir :=
    ((fs.enumerate s.1 dir).1, (fs.enumerate s.1 dir).2, .enumerate dir :: s.2)
  resolve s path :=
    ((fs.resolve s.1 path).1, (fs.resolve s.1 path).2, .resolve path :: s.2)
  holdsDirectory s path filter :=
    ((fs.holdsDirectory s.1 path filter).1, (fs.holdsDirectory s.1 path filter).2,
      .check path :: s.2)
  sameDirectory s a b :=
    ((fs.sameDirectory s.1 a b).1, (fs.sameDirectory s.1 a b).2, s.2)

theorem FileSystem.ListsBelow.recorded {Filter : NameFilter → Prop}
    (h : fs.ListsBelow Filter P) : fs.recorded.ListsBelow Filter P where
  listed := h.listed
  in_place := h.in_place

theorem FileSystem.recorded_preserves (fs : FileSystem σ) (Q : String → Prop) :
    fs.recorded.Preserves Q fun s => ∀ request ∈ s.2, Q request.path where
  enumerate := fun hQ hW => List.forall_mem_cons.mpr ⟨hQ, hW⟩
  resolve := fun hQ hW => List.forall_mem_cons.mpr ⟨hQ, hW⟩
  holdsDirectory := fun _ hQ hW => List.forall_mem_cons.mpr ⟨hQ, hW⟩
  sameDirectory := fun _ _ hW => hW

namespace FileSystem.Asks
variable {s t : σ} {made : List Request}

theorem preserves (h : fs.Asks s made t) (hfs : fs.Preserves Q W)
    (hpaths : ∀ request ∈ made, Q request.path) (hW : W s) : W t := by
  induction h with
  | nothing => exact hW
  | enumerate _ dir ih =>
    obtain ⟨hpath, hrest⟩ := List.forall_mem_cons.mp hpaths
    exact hfs.enumerate hpath (ih hrest)
  | resolve _ path ih =>
    obtain ⟨hpath, hrest⟩ := List.forall_mem_cons.mp hpaths
    exact hfs.resolve hpath (ih hrest)
  | check _ path filter ih =>
    obtain ⟨hpath, hrest⟩ := List.forall_mem_cons.mp hpaths
    exact hfs.holdsDirectory filter hpath (ih hrest)

theorem recorded {s t : σ × List Request} (h : fs.recorded.Asks s made t) :
    t.2 = made ++ s.2 := by
  induction h with
  | nothing => rfl
  | enumerate _ dir ih => exact congrArg (List.cons (Request.enumerate dir)) ih
  | resolve _ path ih => exact congrArg (List.cons (Request.resolve path)) ih
  | check _ path filter ih => exact congrArg (List.cons (Request.check path)) ih

end FileSystem.Asks

theorem FileSystem.FetchRequests.forall_path {handle : Handle} {made : List Request}
    (h : fs.FetchRequests handle made) (hfs : fs.ListsBelow scope.Filter P)
    (hQ : handle.kind ≠ .searchRoot → Q handle.path) : ∀ request ∈ made, Q request.path := by
  intro request hmem
  obtain ⟨hkind, hpath⟩ := h.path_eq hfs.in_place request hmem
  exact hpath.symm ▸ hQ hkind

theorem FileSystem.Preserves.fetchVisible (h : fs.Preserves Q W)
    (hfs : fs.ListsBelow scope.Filter P) {filter : NameFilter} {volumes : VolumeMap}
    {handle : Handle} (hQ : handle.kind ≠ .searchRoot → Q handle.path) {s : σ} (hW : W s) :
    W (LazyTree.fetchVisible fs filter volumes handle s).2 := by
  obtain ⟨made, hmade, hasks⟩ := fetchVisible_asks fs filter volumes handle s
  exact hasks.preserves h (hmade.forall_path hfs hQ) hW

namespace TreeView
variable {tree last : TreeView} {moves : List Move} {id : NodeId} {node : Node} {s s' : σ}

theorem Descending.handle_leads (h : tree.Descending scope P)
    (hlive : tree.arena.get? id = some node) (hkind : node.handle.kind ≠ .searchRoot) :
    scope.Leads P node.handle.path := by
  have hplain : ¬ scope.volumes.Shortcut node.handle := fun hs => hkind hs.kind
  rw [(h.handles _ _ hlive).1]
  exact h.leads (h.descends hlive (.inl hplain)) hlive

theorem Descending.preserves_visit (h : tree.Descending scope P) (hw : tree.WellFormed)
    (hlister : scope.Lists tree.lister) (hlists : fs.ListsBelow scope.Filter P)
    (hfs : fs.Preserves (scope.Leads P) W) (id : NodeId) (recursive always : Bool) (hW : W s) :
    W (visit fs tree.lister id recursive always tree s).world := by
  cases hlive : tree.arena.get? id with
  | none => rwa [visit_of_dead hlive]
  | some node =>
    have hafter := ((keeps_descending hlists).visit hw h hlister id recursive always s).1
    obtain ⟨paths, made, hmade, hpaths, hasks⟩ :=
      visit_asks hw hlive fs tree.lister recursive always s
    refine hasks.preserves hfs (List.forall_mem_append.mpr ⟨?_, ?_⟩) hW
    · intro request hmem
      obtain ⟨path, hpath, rfl⟩ := List.mem_map.mp hmem
      obtain ⟨child, checked, hchild, hkind, rfl⟩ := hpaths path hpath
      exact hafter.handle_leads hchild hkind
    · exact hmade.forall_path hlists (h.handle_leads hlive)

theorem Trail.preserves (h : Trail fs tree s moves last s') (hw : tree.WellFormed)
    (hdescending : tree.Descending scope P) (hlister : scope.Lists tree.lister)
    (hapart : Apart fs scope moves) (hlists : fs.ListsBelow scope.Filter P)
    (hfs : fs.Preserves (scope.Leads P) W) (hW : W s) : W s' := by
  have hkeeps := keeps_descending hlists
  induction h with
  | nil => exact hW
  | @visit tree last s s' moves id recursive always rest ih =>
    have hkept := lister_visit hw fs tree.lister id recursive always s
    refine ih ((visit_run ..).wellFormed hw) (hkeeps.visit hw hdescending hlister ..).1
      (hkept.symm ▸ hlister) (fun move hmove => hapart move (List.mem_append_right _ hmove)) ?_
    exact hdescending.preserves_visit hw hlister hlists hfs id recursive always hW
  | compared a b _ ih =>
    exact ih hw hdescending hlister hapart (hfs.sameDirectory a b hW)
  | @move tree last s s' move moves apart allowed rest ih =>
    have hwithin := hapart move List.mem_cons_self apart
    refine ih (hw.act allowed) ?_ (lists_act_of_apart hlister hwithin apart)
      (fun move hmem => hapart move (List.mem_cons_of_mem _ hmem)) hW
    exact (hkeeps.act hw hdescending hwithin (by rintro ticket fetched rfl; cases apart)
      (by rintro id rfl; exact allowed)).1

end TreeView

/-- The action over a recorded filesystem. A filesystem that changes by itself keeps its record. -/
def Action.recording (record : List Request) : Action σ → Action (σ × List Request)
  | .operate operation => .operate operation
  | .issue id recursive => .issue id recursive
  | .keepLister => .keepLister
  | .fetch ticket lister => .fetch ticket lister
  | .apply result => .apply result
  | .applyFailure ticket failure => .applyFailure ticket failure
  | .drift world => .drift (world, record)

theorem Action.Within.recording {action : Action σ} (h : action.Within scope)
    (record : List Request) : (action.recording record).Within scope := by
  cases action with
  | operate operation => exact h
  | _ => trivial

namespace Session
variable {x : Session σ}

theorem Keeping.preserves (h : x.Keeping fs scope (TreeView.Descending scope P)
      (TreeView.Directs scope P)) (hlists : fs.ListsBelow scope.Filter P)
    (hfs : fs.Preserves (scope.Leads P) W) {action : Action σ} (haction : action.Within scope)
    (hdrift : ∀ world, action = .drift world → W world) (hW : W x.world) :
    W (x.act fs action).world := by
  cases action with
  | operate operation =>
    exact (operation.trail h.wellFormed fs x.world).preserves h.wellFormed h.tree h.within.lister
      (TreeView.apart_moves h.within.lister.1 haction) hlists hfs hW
  | issue id recursive =>
    simp only [Session.act]
    split <;> exact hW
  | fetch i j =>
    simp only [Session.act]
    split
    · rename_i ticket lister hi _
      have hticket := h.tickets ticket (List.mem_of_getElem? hi)
      exact hfs.fetchVisible hlists (fun hkind => hticket.leads fun hs => hkind hs.kind) hW
    · exact hW
  | apply k =>
    simp only [Session.act]
    split <;> exact hW
  | applyFailure i failure =>
    simp only [Session.act]
    split <;> exact hW
  | drift world => exact hdrift world rfl
  | keepLister => exact hW

def runRecorded (fs : FileSystem σ) (x : Session (σ × List Request)) (actions : List (Action σ)) :
    Session (σ × List Request) :=
  actions.foldl (fun x action => x.act fs.recorded (action.recording x.world.2)) x

theorem requests_lead {x : Session (σ × List Request)} (hlists : fs.ListsBelow scope.Filter P)
    (h : x.Keeping fs.recorded scope (TreeView.Descending scope P) (TreeView.Directs scope P))
    (hrecord : ∀ request ∈ x.world.2, scope.Leads P request.path) {actions : List (Action σ)}
    (hactions : ∀ action ∈ actions, action.Within scope) :
    ∀ request ∈ (x.runRecorded fs actions).world.2, scope.Leads P request.path := by
  induction actions generalizing x with
  | nil => exact hrecord
  | cons action actions ih =>
    obtain ⟨haction, hrest⟩ := List.forall_mem_cons.mp hactions
    have hrecording := haction.recording x.world.2
    refine ih (h.act (TreeView.keeps_descending hlists.recorded) hrecording) ?_ hrest
    refine h.preserves hlists.recorded (fs.recorded_preserves _) hrecording ?_ hrecord
    intro world hdrift
    cases action with
    | drift before =>
      obtain rfl := Action.drift.inj hdrift
      exact hrecord
    | _ => cases hdrift

end Session

end LazyTree
