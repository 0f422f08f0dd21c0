import LazyTree.Proofs.Requests

/-!
Which refresh lists which directory. A refresh is noted with the tree that it is issued on. In the
order of the refreshes each of them lists the directory of its node, once or not at all, and nothing
else that an operation asks for is a listing.
-/
namespace LazyTree
variable {σ : Type} {fs : FileSystem σ}

def Request.listed? : Request → Option String
  | .enumerate dir => some dir
  | _ => none

/-- The directories that were listed, in the order of the requests. -/
def enumerated (record : List Request) : List String :=
  (record.filterMap Request.listed?).reverse

theorem filterMap_checks {view : Request → Option String} (h : ∀ path, view (.check path) = none)
    (paths : List String) : (paths.map Request.check).filterMap view = [] := by
  simp [h]

theorem enumerated_checked (paths : List String) (made record : List Request) :
    enumerated (paths.map .check ++ (made ++ record)) = enumerated record ++ enumerated made := by
  have hnone : (paths.map Request.check).filterMap Request.listed? = [] :=
    filterMap_checks (fun _ => rfl) paths
  simp only [enumerated, List.filterMap_append, hnone, List.nil_append, List.reverse_append]

def Request.resolved? : Request → Option String
  | .resolve path => some path
  | _ => none

/-- The placeholders that were resolved, in the order of the requests. -/
def resolved (record : List Request) : List String :=
  (record.filterMap Request.resolved?).reverse

namespace FileSystem.FetchRequests
variable {handle : Handle} {made : List Request}

theorem enumerated_cases (h : fs.FetchRequests handle made) :
    enumerated made = [] ∨ ∃ dir, fs.Denotes handle dir ∧ enumerated made = [dir] := by
  cases h with
  | nothing => exact .inl rfl
  | unresolved _ => exact .inl rfl
  | listing denotes => exact .inr ⟨_, denotes, rfl⟩
  | resolvedListing denotes => exact .inr ⟨_, denotes, rfl⟩

theorem length_listed (h : fs.FetchRequests handle made) :
    (made.filterMap Request.listed?).length ≤ 1 := by
  cases h with
  | nothing => exact Nat.zero_le 1
  | unresolved _ => exact Nat.zero_le 1
  | listing _ => exact Nat.le_refl 1
  | resolvedListing _ => exact Nat.le_refl 1

theorem length_resolved (h : fs.FetchRequests handle made) :
    (made.filterMap Request.resolved?).length ≤ 1 := by
  cases h with
  | nothing => exact Nat.zero_le 1
  | unresolved _ => exact Nat.le_refl 1
  | listing _ => exact Nat.zero_le 1
  | resolvedListing _ => exact Nat.le_refl 1

theorem of_recorded (h : fs.recorded.FetchRequests handle made) : fs.FetchRequests handle made := by
  have hdenotes {dir : String} (h : fs.recorded.Denotes handle dir) : fs.Denotes handle dir := by
    cases h with
    | real kind => exact .real kind
    | resolved kind answer => exact .resolved kind answer
  cases h with
  | nothing => exact .nothing
  | unresolved kind => exact .unresolved kind
  | listing denotes => exact .listing (hdenotes denotes)
  | resolvedListing denotes => exact .resolvedListing (hdenotes denotes)

end FileSystem.FetchRequests

/-- Whether the directories are in order those that refreshes list for their nodes. -/
inductive FileSystem.ListedFor (fs : FileSystem σ) : List (TreeView × NodeId) → List String → Prop
    where
  | nil : ListedFor fs [] []
  | listed {tree : TreeView} {id : NodeId} {node : Node} {dir : String}
      {issues : List (TreeView × NodeId)} {dirs : List String} (live : tree.node? id = some node)
      (denotes : fs.Denotes node.handle dir) (rest : ListedFor fs issues dirs) :
      ListedFor fs ((tree, id) :: issues) (dir :: dirs)
  | unlisted {tree : TreeView} {id : NodeId} {issues : List (TreeView × NodeId)}
      {dirs : List String} (rest : ListedFor fs issues dirs) :
      ListedFor fs ((tree, id) :: issues) dirs

namespace TreeView
variable {tree last : TreeView} {move : Move} {moves : List Move} {id : NodeId} {node : Node}
variable {s s' : σ × List Request}

theorem record_visit (hw : tree.WellFormed) (hlive : tree.arena.get? id = some node)
    (fs : FileSystem σ) (lister : Lister) (recursive always : Bool) (s : σ × List Request) :
    ∃ (paths : List String) (made : List Request), fs.FetchRequests node.handle made ∧
      (visit fs.recorded lister id recursive always tree s).world.2 =
        paths.map .check ++ (made ++ s.2) := by
  obtain ⟨paths, made, hmade, _, hasks⟩ :=
    visit_asks hw hlive fs.recorded lister recursive always s
  exact ⟨paths, made, hmade.of_recorded, hasks.recorded.trans (List.append_assoc ..)⟩

/-- The refreshes among the moves, each with the tree that it is issued on. -/
def issues (tree : TreeView) : List Move → List (TreeView × NodeId)
  | [] => []
  | move :: moves => move.issued.map (tree, ·) ++ issues (tree.act move) moves

theorem issues_append (tree : TreeView) (moves later : List Move) :
    issues tree (moves ++ later) = issues tree moves ++ issues (moves.foldl act tree) later := by
  induction moves generalizing tree with
  | nil => rfl
  | cons move moves ih =>
    rw [List.cons_append, issues, ih, ← List.append_assoc]
    rfl

theorem map_snd_issues (tree : TreeView) (moves : List Move) :
    (issues tree moves).map Prod.snd = issuedBy moves := by
  induction moves generalizing tree with
  | nil => rfl
  | cons move moves ih =>
    rw [issues, List.map_append, ih, List.map_map]
    exact congrArg (· ++ issuedBy moves) (List.map_id _)

theorem issues_eq_nil (h : issuedBy moves = []) (tree : TreeView) : issues tree moves = [] := by
  rw [← map_snd_issues tree moves] at h
  exact List.map_eq_nil_iff.mp h

theorem forall_issues_of_none {motive : TreeView × NodeId → Prop} (h : issuedBy moves = []) :
    ∀ issue ∈ issues tree moves, motive issue := by
  rw [issues_eq_nil h]
  exact List.forall_mem_nil _

theorem issues_cons_of_apart (h : move.refreshes = false) (tree : TreeView) (moves : List Move) :
    issues tree (move :: moves) = issues (tree.act move) moves := by
  cases move with
  | issue id recursive => cases h
  | _ => rfl

theorem issues_visitMoves (hlive : tree.arena.get? id = some node) (fs : FileSystem σ)
    (lister : Lister) (recursive always : Bool) (s : σ) :
    issues tree (visitMoves fs lister id recursive always tree s) = [(tree, id)] := by
  simp only [visitMoves, issue_of_live hlive]
  refine congrArg (List.cons (tree, id)) (issues_eq_nil ?_ _)
  exact flatMap_appliedMoves (fun _ _ => rfl) ..

theorem visitMoves_of_dead (hdead : tree.arena.get? id = none) (fs : FileSystem σ)
    (lister : Lister) (recursive always : Bool) (s : σ) :
    visitMoves fs lister id recursive always tree s = [] := by
  simp only [visitMoves, issue_of_dead hdead]

theorem mem_issues_visitMoves {fs : FileSystem σ} {lister : Lister} {recursive always : Bool}
    {s : σ} {issue : TreeView × NodeId}
    (h : issue ∈ issues tree (visitMoves fs lister id recursive always tree s)) :
    issue = (tree, id) := by
  cases hlive : tree.arena.get? id with
  | none =>
    rw [visitMoves_of_dead hlive] at h
    cases h
  | some node =>
    rw [issues_visitMoves hlive] at h
    exact List.mem_singleton.mp h

theorem Trail.listedFor (h : Trail fs.recorded tree s moves last s') (hw : tree.WellFormed) :
    ∃ dirs, enumerated s'.2 = enumerated s.2 ++ dirs ∧ fs.ListedFor (issues tree moves) dirs := by
  induction h with
  | nil => exact ⟨[], (List.append_nil _).symm, .nil⟩
  | @visit tree last s s' moves id recursive always rest ih =>
    have hrun := visit_run fs.recorded tree.lister id recursive always tree s
    obtain ⟨dirs, hdirs, hlisted⟩ := ih (hrun.wellFormed hw)
    rw [issues_append, ← hrun.last_eq]
    cases hlive : tree.arena.get? id with
    | none =>
      simp only [visit_of_dead hlive] at hdirs hlisted
      simp only [visitMoves_of_dead hlive, visit_of_dead hlive]
      exact ⟨dirs, hdirs, hlisted⟩
    | some node =>
      obtain ⟨paths, made, hmade, hrecord⟩ :=
        record_visit hw hlive fs tree.lister recursive always s
      rw [hrecord, enumerated_checked] at hdirs
      rw [issues_visitMoves hlive]
      rcases hmade.enumerated_cases with hnone | ⟨dir, hdenotes, hone⟩
      · exact ⟨dirs, by simpa [hnone] using hdirs, .unlisted hlisted⟩
      · exact ⟨dir :: dirs, by simpa [hone] using hdirs, .listed hlive hdenotes hlisted⟩
  | compared a b _ ih => exact ih hw
  | move apart allowed _ ih =>
    rw [issues_cons_of_apart apart]
    exact ih (hw.act allowed)

theorem Trail.length_view (h : Trail fs.recorded tree s moves last s') (hw : tree.WellFormed)
    {view : Request → Option String} (hcheck : ∀ path, view (.check path) = none)
    (hfetch : ∀ {handle made}, fs.FetchRequests handle made → (made.filterMap view).length ≤ 1) :
    (s'.2.filterMap view).length ≤ (s.2.filterMap view).length + (issuedBy moves).length := by
  induction h with
  | nil => exact Nat.le_refl _
  | @visit tree last s s' moves id recursive always rest ih =>
    have hrun := visit_run fs.recorded tree.lister id recursive always tree s
    have hrest := ih (hrun.wellFormed hw)
    rw [issuedBy_append, List.length_append]
    cases hlive : tree.arena.get? id with
    | none =>
      rw [visit_of_dead hlive] at hrest
      exact Nat.le_trans hrest (Nat.add_le_add_left (Nat.le_add_left ..) _)
    | some node =>
      obtain ⟨paths, made, hmade, hrecord⟩ :=
        record_visit hw hlive fs tree.lister recursive always s
      have hone := hfetch hmade
      rw [hrecord, List.filterMap_append, filterMap_checks hcheck, List.nil_append,
        List.filterMap_append, List.length_append] at hrest
      rw [issuedBy_visitMoves hlive, List.length_singleton]
      omega
  | compared a b _ ih => exact ih hw
  | @move tree last s s' move moves apart allowed _ ih =>
    rw [← map_snd_issues tree, issues_cons_of_apart apart, map_snd_issues]
    exact ih (hw.act allowed)

theorem Trail.length_enumerated (h : Trail fs.recorded tree s moves last s')
    (hw : tree.WellFormed) :
    (enumerated s'.2).length ≤ (enumerated s.2).length + (issuedBy moves).length := by
  rw [enumerated, enumerated, List.length_reverse, List.length_reverse]
  exact h.length_view hw (fun _ => rfl) fun hmade => hmade.length_listed

theorem Trail.length_resolved (h : Trail fs.recorded tree s moves last s') (hw : tree.WellFormed) :
    (resolved s'.2).length ≤ (resolved s.2).length + (issuedBy moves).length := by
  rw [resolved, resolved, List.length_reverse, List.length_reverse]
  exact h.length_view hw (fun _ => rfl) fun hmade => hmade.length_resolved

end TreeView

end LazyTree
