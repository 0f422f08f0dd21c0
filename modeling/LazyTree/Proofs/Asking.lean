import LazyTree.FileSystem.Scripted
import LazyTree.Proofs.Visit

/-!
What a refresh asks of the filesystem. Each function below it comes with the requests that it makes;
what these do to the state of the filesystem, which paths they are for and how many there are of
each kind is read off them.
-/
namespace LazyTree
variable {σ : Type} {fs : FileSystem σ} {s t u : σ} {made later : List Request} {handle : Handle}

def Request.path : Request → String
  | .enumerate path => path
  | .resolve path => path
  | .check path => path

namespace FileSystem

/-- The requests, the newest first, lead from one state to another, whatever their answers. -/
inductive Asks (fs : FileSystem σ) (s : σ) : List Request → σ → Prop where
  | nothing : Asks fs s [] s
  | enumerate {made : List Request} {t : σ} (h : Asks fs s made t) (dir : String) :
    Asks fs s (.enumerate dir :: made) (fs.enumerate t dir).2
  | resolve {made : List Request} {t : σ} (h : Asks fs s made t) (path : String) :
    Asks fs s (.resolve path :: made) (fs.resolve t path).2
  | check {made : List Request} {t : σ} (h : Asks fs s made t) (path : String)
      (filter : NameFilter) :
    Asks fs s (.check path :: made) (fs.holdsDirectory t path filter).2

theorem Asks.append (h : fs.Asks s made t) (h' : fs.Asks t later u) :
    fs.Asks s (later ++ made) u := by
  induction h' with
  | nothing => exact h
  | enumerate _ dir ih => exact ih.enumerate dir
  | resolve _ path ih => exact ih.resolve path
  | check _ path filter ih => exact ih.check path filter

/-- The directories that a listing for `handle` may be of: its own one, or one that it was resolved
to. -/
inductive Denotes (fs : FileSystem σ) (handle : Handle) : String → Prop where
  | real (kind : handle.kind = .real) : Denotes fs handle handle.path
  | resolved {s : σ} {found : Handle} (kind : handle.kind = .placeholder)
      (answer : (fs.resolve s handle.path).1 = .ok found) : Denotes fs handle found.path

/-- What fetching for `handle` requests, the newest first: each kind of request once at most. -/
inductive FetchRequests (fs : FileSystem σ) (handle : Handle) : List Request → Prop where
  | nothing : FetchRequests fs handle []
  | unresolved (kind : handle.kind = .placeholder) : FetchRequests fs handle [.resolve handle.path]
  | listing {dir : String} (denotes : fs.Denotes handle dir) :
    FetchRequests fs handle [.enumerate dir]
  | resolvedListing {dir : String} (denotes : fs.Denotes handle dir) :
    FetchRequests fs handle [.enumerate dir, .resolve handle.path]

theorem Denotes.kind_ne {dir : String} (h : fs.Denotes handle dir) :
    handle.kind ≠ .searchRoot := by
  cases h with
  | real kind => simp [kind]
  | resolved kind _ => simp [kind]

/-- Where resolutions stay in place, a fetch asks for the path of its handle and for no other. -/
theorem FetchRequests.path_eq (h : fs.FetchRequests handle made)
    (hplace : ∀ {s found}, (fs.resolve s handle.path).1 = .ok found → found.path = handle.path) :
    ∀ request ∈ made, handle.kind ≠ .searchRoot ∧ request.path = handle.path := by
  have hdir {dir : String} (hdenotes : fs.Denotes handle dir) : dir = handle.path := by
    cases hdenotes with
    | real _ => rfl
    | resolved _ answer => exact hplace answer
  cases h with
  | nothing => simp
  | unresolved kind => simp [kind, Request.path]
  | listing denotes => simp [denotes.kind_ne, Request.path, hdir denotes]
  | resolvedListing denotes => simp [denotes.kind_ne, Request.path, hdir denotes]

end FileSystem

section Asking
variable (fs) (filter : NameFilter) (volumes : VolumeMap)

theorem listDirectory_asks (handle : Handle) (resolved : Option Handle) (dir : String) (s : σ) :
    fs.Asks s [.enumerate dir] (listDirectory fs filter volumes handle resolved dir s).2 := by
  have hasks : fs.Asks s [.enumerate dir] (fs.enumerate s dir).2 := .enumerate .nothing dir
  unfold listDirectory
  generalize fs.enumerate s dir = result at hasks ⊢
  obtain ⟨_ | entries, world⟩ := result <;> exact hasks

theorem fetchVisible_asks (handle : Handle) (s : σ) :
    ∃ made, fs.FetchRequests handle made ∧
      fs.Asks s made (fetchVisible fs filter volumes handle s).2 := by
  unfold fetchVisible
  cases hkind : handle.kind with
  | searchRoot => exact ⟨[], .nothing, .nothing⟩
  | real => exact ⟨_, .listing (.real hkind), listDirectory_asks ..⟩
  | placeholder =>
    have hasks : fs.Asks s [.resolve handle.path] (fs.resolve s handle.path).2 :=
      .resolve .nothing handle.path
    have hdenotes {found : Handle} (h : (fs.resolve s handle.path).1 = .ok found) :
        fs.Denotes handle found.path := .resolved hkind h
    dsimp only
    generalize fs.resolve s handle.path = result at hasks hdenotes ⊢
    obtain ⟨e | found, world⟩ := result
    · exact ⟨_, .unresolved hkind, hasks⟩
    · dsimp only
      split
      · exact ⟨_, .unresolved hkind, hasks⟩
      · exact ⟨_, .resolvedListing (hdenotes rfl), hasks.append (listDirectory_asks ..)⟩

theorem wouldListAny_asks (handle : Handle) (s : σ) :
    ∃ paths : List String, (∀ path ∈ paths, handle.kind ≠ .searchRoot ∧ path = handle.path) ∧
      fs.Asks s (paths.map .check) (wouldListAny fs filter volumes handle s).2 := by
  unfold wouldListAny
  cases hkind : handle.kind with
  | searchRoot => exact ⟨[], by simp, .nothing⟩
  | placeholder => exact ⟨[], by simp, .nothing⟩
  | real =>
    dsimp only
    split
    · exact ⟨[], by simp, .nothing⟩
    · have hasks : fs.Asks s [.check handle.path] (fs.holdsDirectory s handle.path filter).2 :=
        .check .nothing handle.path filter
      refine ⟨[handle.path], by simp, ?_⟩
      generalize fs.holdsDirectory s handle.path filter = result at hasks ⊢
      obtain ⟨_ | found, world⟩ := result <;> exact hasks

end Asking

namespace TreeView
variable {tree : TreeView} {id : NodeId} {node : Node}

theorem checkTargets_asks (fs : FileSystem σ) (lister : Lister) (targets : List (NodeId × Handle))
    (tree : TreeView) (s : σ) :
    ∃ paths : List String,
      (∀ path ∈ paths, ∃ target ∈ targets,
        target.2.kind ≠ .searchRoot ∧ path = target.2.path) ∧
      fs.Asks s (paths.map .check) (checkTargets fs lister targets tree s).2 := by
  induction targets generalizing tree s with
  | nil => exact ⟨[], by simp, .nothing⟩
  | cons target targets ih =>
    obtain ⟨id, handle⟩ := target
    obtain ⟨first, hfirst, hasks⟩ := wouldListAny_asks fs lister.filter lister.volumes handle s
    have hjoin (tree : TreeView) (t : σ) (ht : fs.Asks s (first.map .check) t) :
        ∃ paths : List String,
          (∀ path ∈ paths, ∃ target ∈ (id, handle) :: targets,
            target.2.kind ≠ .searchRoot ∧ path = target.2.path) ∧
          fs.Asks s (paths.map .check) (checkTargets fs lister targets tree t).2 := by
      obtain ⟨rest, hrest, hlater⟩ := ih tree t
      refine ⟨rest ++ first, fun path hmem => ?_, ?_⟩
      · rcases List.mem_append.mp hmem with hmem | hmem
        · obtain ⟨target, htarget, hpath⟩ := hrest path hmem
          exact ⟨target, List.mem_cons_of_mem _ htarget, hpath⟩
        · exact ⟨(id, handle), List.mem_cons_self, hfirst path hmem⟩
      · rw [List.map_append]
        exact ht.append hlater
    unfold checkTargets Lister.wouldList
    generalize wouldListAny fs lister.filter lister.volumes handle s = result at hasks ⊢
    obtain ⟨_ | found, t⟩ := result
    · exact hjoin tree t hasks
    · exact hjoin (tree.noteExpandable id found) t hasks

theorem visitChecks_asks (fs : FileSystem σ) (lister : Lister) (id : NodeId) (always : Bool)
    (outcome : MergeOutcome) (tree : TreeView) (s : σ) :
    let v := visitChecks fs lister id always outcome tree s
    ∃ paths : List String,
      (∀ path ∈ paths, ∃ child node, v.tree.arena.get? child = some node ∧
        node.handle.kind ≠ .searchRoot ∧ path = node.handle.path) ∧
      fs.Asks s (paths.map .check) v.world := by
  have hhandle (child : NodeId) :
      ((visitChecks fs lister id always outcome tree s).tree.arena.get? child).map Node.handle =
        (tree.arena.get? child).map Node.handle :=
    map_get?_visitChecks (fun _ _ => rfl) ..
  intro v
  by_cases hchecked : (always || tree.arena.isExpanded id) = true
  · obtain ⟨paths, hpaths, hasks⟩ :=
      checkTargets_asks fs lister (tree.collapsedChildren id) tree s
    refine ⟨paths, fun path hmem => ?_, ?_⟩
    · obtain ⟨⟨child, handle⟩, htarget, hkind, hpath⟩ := hpaths path hmem
      obtain ⟨_, was, hwas, _, rfl⟩ := mem_collapsedChildren.mp htarget
      obtain ⟨node, hlive, hsame⟩ := Option.map_eq_some_iff.mp
        ((hhandle child).trans (congrArg (Option.map Node.handle) hwas))
      exact ⟨child, node, hlive, hsame ▸ hkind, hsame ▸ hpath⟩
    · simp only [v, visitChecks, hchecked, if_true]
      exact hasks
  · refine ⟨[], by simp, ?_⟩
    simp only [v, visitChecks, hchecked]
    exact .nothing

theorem visit_asks (hw : tree.WellFormed) (hlive : tree.arena.get? id = some node)
    (fs : FileSystem σ) (lister : Lister) (recursive always : Bool) (s : σ) :
    let v := visit fs lister id recursive always tree s
    ∃ (paths : List String) (made : List Request), fs.FetchRequests node.handle made ∧
      (∀ path ∈ paths, ∃ child checked, v.tree.arena.get? child = some checked ∧
        checked.handle.kind ≠ .searchRoot ∧ path = checked.handle.path) ∧
      fs.Asks s (paths.map .check ++ made) v.world := by
  obtain ⟨made, hmade, hfetched⟩ := fetchVisible_asks fs lister.filter lister.volumes node.handle s
  intro v
  rcases visit_of_live hw hlive fs lister recursive always s with
    ⟨e, _, heq⟩ | ⟨listing, outcome, listed, children, _, _, _, heq⟩
  · refine ⟨[], made, hmade, by simp, ?_⟩
    rw [show v = _ from heq]
    exact hfetched
  · obtain ⟨paths, hpaths, hasks⟩ := visitChecks_asks fs lister id always outcome listed
      (fetchVisible fs lister.filter lister.volumes node.handle s).2
    rw [show v = _ from heq]
    exact ⟨paths, made, hmade, hpaths, hfetched.append hasks⟩

end TreeView

end LazyTree
