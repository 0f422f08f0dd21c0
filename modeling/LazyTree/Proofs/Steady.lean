import LazyTree.Proofs.Asking
import LazyTree.Proofs.Handles

/-!
Filesystems that do not change while a refresh runs: every request is answered as it was at the
beginning, however many requests were made in between.
-/
namespace LazyTree
variable {σ : Type} {fs : FileSystem σ} {s t : σ}

namespace FileSystem

/-- The states that the requests of a refresh can lead to. -/
inductive Asked (fs : FileSystem σ) (s : σ) : σ → Prop where
  | nothing : Asked fs s s
  | enumerate {t : σ} (h : Asked fs s t) (dir : String) : Asked fs s (fs.enumerate t dir).2
  | resolve {t : σ} (h : Asked fs s t) (path : String) : Asked fs s (fs.resolve t path).2
  | holdsDirectory {t : σ} (h : Asked fs s t) (path : String) (filter : NameFilter) :
    Asked fs s (fs.holdsDirectory t path filter).2

/-- Requests that a refresh makes do not change later answers. -/
structure Steady (fs : FileSystem σ) (s : σ) : Prop where
  enumerate : ∀ {t}, fs.Asked s t → ∀ dir, (fs.enumerate t dir).1 = (fs.enumerate s dir).1
  resolve : ∀ {t}, fs.Asked s t → ∀ path, (fs.resolve t path).1 = (fs.resolve s path).1
  holdsDirectory : ∀ {t}, fs.Asked s t → ∀ path filter,
    (fs.holdsDirectory t path filter).1 = (fs.holdsDirectory s path filter).1

end FileSystem

theorem FileSystem.Asks.asked {u : σ} {made : List Request} (hasks : fs.Asks t made u)
    (h : fs.Asked s t) : fs.Asked s u := by
  induction hasks with
  | nothing => exact h
  | enumerate _ dir ih => exact ih.enumerate dir
  | resolve _ path ih => exact ih.resolve path
  | check _ path filter ih => exact ih.holdsDirectory path filter

theorem asked_fetchVisible (h : fs.Asked s t) (filter : NameFilter) (volumes : VolumeMap)
    (handle : Handle) : fs.Asked s (fetchVisible fs filter volumes handle t).2 := by
  obtain ⟨_, _, hasks⟩ := fetchVisible_asks fs filter volumes handle t
  exact hasks.asked h

theorem asked_wouldListAny (h : fs.Asked s t) (filter : NameFilter) (volumes : VolumeMap)
    (handle : Handle) : fs.Asked s (wouldListAny fs filter volumes handle t).2 := by
  obtain ⟨_, _, hasks⟩ := wouldListAny_asks fs filter volumes handle t
  exact hasks.asked h

theorem listDirectory_congr {t' : σ} {dir : String}
    (h : (fs.enumerate t dir).1 = (fs.enumerate t' dir).1) (filter : NameFilter)
    (volumes : VolumeMap) (handle : Handle) (resolved : Option Handle) :
    (listDirectory fs filter volumes handle resolved dir t).1 =
      (listDirectory fs filter volumes handle resolved dir t').1 := by
  unfold listDirectory
  generalize fs.enumerate t dir = result at h ⊢
  generalize fs.enumerate t' dir = result' at h ⊢
  obtain ⟨answer, _⟩ := result
  obtain ⟨answer', _⟩ := result'
  obtain rfl : answer = answer' := h
  cases answer <;> rfl

theorem fetchVisible_steady (hs : fs.Steady s) (h : fs.Asked s t) (filter : NameFilter)
    (volumes : VolumeMap) (handle : Handle) :
    (fetchVisible fs filter volumes handle t).1 = (fetchVisible fs filter volumes handle s).1 := by
  unfold fetchVisible
  cases handle.kind with
  | searchRoot => rfl
  | real => exact listDirectory_congr (hs.enumerate h _) ..
  | placeholder =>
    have hasked := h.resolve handle.path
    have hasked' : fs.Asked s (fs.resolve s handle.path).2 := .resolve .nothing handle.path
    have hsame := hs.resolve h handle.path
    dsimp only
    generalize fs.resolve t handle.path = result at hasked hsame ⊢
    generalize fs.resolve s handle.path = result' at hasked' hsame ⊢
    obtain ⟨answer, t'⟩ := result
    obtain ⟨answer', s'⟩ := result'
    obtain rfl : answer = answer' := hsame
    cases answer with
    | error e => rfl
    | ok found =>
      dsimp only
      split
      · rfl
      · exact listDirectory_congr ((hs.enumerate hasked _).trans (hs.enumerate hasked' _).symm) ..

theorem wouldListAny_steady (hs : fs.Steady s) (h : fs.Asked s t) (filter : NameFilter)
    (volumes : VolumeMap) (handle : Handle) :
    (wouldListAny fs filter volumes handle t).1 = (wouldListAny fs filter volumes handle s).1 := by
  unfold wouldListAny
  cases handle.kind with
  | searchRoot => rfl
  | placeholder => rfl
  | real =>
    dsimp only
    split
    · rfl
    · have hsame := hs.holdsDirectory h handle.path filter
      generalize fs.holdsDirectory t handle.path filter = result at hsame ⊢
      generalize fs.holdsDirectory s handle.path filter = result' at hsame ⊢
      obtain ⟨answer, _⟩ := result
      obtain ⟨answer', _⟩ := result'
      obtain rfl : answer = answer' := hsame
      cases answer <;> rfl

theorem arrange_congr {filter : NameFilter} {volumes : VolumeMap} {a b : Handle}
    {entries : List Entry} (h : a.path = b.path) :
    arrange filter volumes a entries = arrange filter volumes b entries := by
  simp only [arrange, h]

/-- The directory that a placeholder was resolved to lists what the placeholder listed. -/
theorem fetchVisible_again (hs : fs.Steady s) {filter : NameFilter} {volumes : VolumeMap}
    {handle : Handle} {listing : Listing}
    (hresolve : ∀ {path found}, (fs.resolve s path).1 = .ok found →
      found.path = path ∧ found.kind ≠ .searchRoot)
    (hfetch : (fetchVisible fs filter volumes handle s).1 = .ok listing) :
    ∃ again, (fetchVisible fs filter volumes (listing.resolved.getD handle) s).1 = .ok again ∧
      again.entries = listing.entries := by
  rcases fetchVisible_ok hfetch with ⟨_, rfl⟩ | ⟨_, hlist⟩ | ⟨found, _, hfound, hreal, hlist⟩
  · exact ⟨_, hfetch, rfl⟩
  · obtain ⟨entries, _, rfl⟩ := listDirectory_ok hlist
    exact ⟨_, hfetch, rfl⟩
  · obtain ⟨entries, henumerate, rfl⟩ := listDirectory_ok hlist
    obtain ⟨hpath, hkind⟩ := hresolve hfound
    have hkind' : found.kind = .real := by
      cases hk : found.kind with
      | real => rfl
      | placeholder => simp [Handle.isUnresolved, hk] at hreal
      | searchRoot => exact absurd hk hkind
    rw [hs.enumerate (.resolve .nothing handle.path)] at henumerate
    refine ⟨⟨none, arrange filter volumes handle entries⟩, ?_, rfl⟩
    simp only [Option.getD_some, fetchVisible, hkind']
    unfold listDirectory
    generalize fs.enumerate s found.path = result at henumerate ⊢
    obtain ⟨answer, _⟩ := result
    obtain rfl : answer = .ok entries := henumerate
    exact congrArg (fun entries => Except.ok (Listing.mk none entries)) (arrange_congr hpath)

namespace TreeView
variable {tree : TreeView} {lister : Lister} {targets : List (NodeId × Handle)} {id : NodeId}

theorem get?_checkTargets_of_mem (lister : Lister) (hs : fs.Steady s) (h : fs.Asked s t)
    {handle : Handle} {node : Node} {found : Bool} (hnodup : (targets.map Prod.fst).Nodup)
    (hmem : (id, handle) ∈ targets) (hlive : tree.arena.get? id = some node)
    (hcollapsed : node.expanded = false)
    (hfound : (wouldListAny fs lister.filter lister.volumes handle s).1 = .ok found) :
    (checkTargets fs lister targets tree t).1.arena.get? id =
      some { node with expandable := found } := by
  induction targets generalizing tree t with
  | nil => simp at hmem
  | cons target targets ih =>
    obtain ⟨checked, handle'⟩ := target
    simp only [List.map_cons, List.nodup_cons] at hnodup
    have hasked := asked_wouldListAny h lister.filter lister.volumes handle'
    have hsame := wouldListAny_steady hs h lister.filter lister.volumes handle'
    unfold checkTargets Lister.wouldList
    generalize wouldListAny fs lister.filter lister.volumes handle' t = result at hasked hsame ⊢
    obtain ⟨answer, t'⟩ := result
    rcases List.mem_cons.mp hmem with heq | hrest
    · obtain ⟨rfl, rfl⟩ := Prod.mk.inj heq
      obtain rfl : answer = .ok found := hsame.trans hfound
      dsimp only
      rw [get?_checkTargets_of_not_mem hnodup.1, noteExpandable_eq]
      simp [TreeView.modify, hlive, hcollapsed]
    · have hne : id ≠ checked := by
        rintro rfl
        exact hnodup.1 (List.mem_map.mpr ⟨_, hrest, rfl⟩)
      cases answer with
      | error e => exact ih hasked hnodup.2 hrest hlive
      | ok other =>
        refine ih hasked hnodup.2 hrest ?_
        rw [noteExpandable_eq]
        exact (Arena.get?_modify_of_ne hne _).trans hlive

end TreeView

end LazyTree
