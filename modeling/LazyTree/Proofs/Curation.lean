import LazyTree.Proofs.Mirror
import LazyTree.Proofs.Scope
import LazyTree.Settings

/-!
The curated view of the remote root. A listing is curated by the path of the handle that its ticket
was issued with. That is the path of the node as long as placeholders resolve in place; a handle
that replaced a placeholder may lead elsewhere, and from then on the node lists what is there as it
is.
-/
namespace LazyTree
variable {filter : NameFilter} {volumes : VolumeMap} {handle : Handle} {entries : List Entry}

namespace VolumeMap

/-- One shortcut for each search root and no others, and no other directory with a hidden name. -/
def Curates (volumes : VolumeMap) (handles : List Handle) : Prop :=
  (handles.filter fun handle => handle.kind = .searchRoot).Perm
      (volumes.searchRoots.map SearchRoot.handle) ∧
    ∀ handle ∈ handles, handle.kind ≠ .searchRoot → handle.name ∉ volumes.remoteHidden

instance (volumes : VolumeMap) (handles : List Handle) : Decidable (volumes.Curates handles) :=
  inferInstanceAs (Decidable (_ ∧ _))

theorem Curates.perm {handles sorted : List Handle} (h : volumes.Curates handles)
    (hperm : sorted.Perm handles) : volumes.Curates sorted :=
  ⟨(hperm.filter _).trans h.1, fun handle hmem => h.2 handle (hperm.mem_iff.mp hmem)⟩

theorem filter_searchRoots (roots : List SearchRoot) :
    (roots.map SearchRoot.handle).filter (fun handle => handle.kind = .searchRoot) =
      roots.map SearchRoot.handle := by
  refine List.filter_eq_self.mpr fun handle hmem => ?_
  obtain ⟨root, _, rfl⟩ := List.mem_map.mp hmem
  rfl

end VolumeMap

theorem kind_of_visible (h : handle ∈ visibleHandles filter entries) :
    handle.kind ≠ .searchRoot := by
  obtain ⟨entry, _, rfl⟩ := List.mem_map.mp h
  cases hvirtual : entry.isVirtual <;> simp [Entry.toHandle, hvirtual]

theorem of_mem_labelled {kept : List Handle} {listed : Handle}
    (h : listed ∈ kept.map fun handle =>
      if handle.name = volumes.myDrive then handle.labelled volumes.myDriveLabel else handle) :
    ∃ handle ∈ kept, listed.kind = handle.kind ∧ listed.name = handle.name := by
  obtain ⟨handle, hkept, rfl⟩ := List.mem_map.mp h
  refine ⟨handle, hkept, ?_⟩
  split <;> exact ⟨rfl, rfl⟩

theorem VolumeMap.curates_arrangeRemote {handles : List Handle}
    (h : ∀ handle ∈ handles, handle.kind ≠ .searchRoot) :
    volumes.Curates (volumes.arrangeRemote handles) := by
  rw [Curates, arrangeRemote]
  have hplain : ∀ listed ∈ (handles.filter fun handle =>
        !volumes.remoteHidden.contains handle.name).map fun handle =>
          if handle.name = volumes.myDrive then handle.labelled volumes.myDriveLabel else handle,
      listed.kind ≠ .searchRoot ∧ listed.name ∉ volumes.remoteHidden := by
    intro listed hlisted
    obtain ⟨handle, hkept, hkind, hname⟩ := of_mem_labelled hlisted
    obtain ⟨hmem, hshown⟩ := List.mem_filter.mp hkept
    exact ⟨hkind ▸ h handle hmem, by simpa [hname] using hshown⟩
  refine ⟨?_, fun handle hmem hkind => ?_⟩
  · rw [List.filter_append, List.filter_eq_nil_iff.mpr fun handle hmem => ?_, List.nil_append,
      filter_searchRoots]
    simpa using (hplain handle hmem).1
  · cases List.mem_append.mp hmem with
    | inl hmem => exact (hplain handle hmem).2
    | inr hmem =>
      obtain ⟨root, _, rfl⟩ := List.mem_map.mp hmem
      exact absurd rfl hkind

theorem VolumeMap.curates_iff_of_plain {handles : List Handle}
    (h : ∀ handle ∈ handles, handle.kind ≠ .searchRoot) :
    volumes.Curates handles ↔
      volumes.searchRoots = [] ∧ ∀ handle ∈ handles, handle.name ∉ volumes.remoteHidden := by
  have hnone : (handles.filter fun handle => handle.kind = .searchRoot) = [] :=
    List.filter_eq_nil_iff.mpr fun handle hmem => by simpa using h handle hmem
  rw [Curates, hnone, List.nil_perm, List.map_eq_nil_iff]
  exact and_congr_right fun _ => forall₂_congr fun handle hmem => by simp [h handle hmem]

theorem curates_arrange (htop : handle.path = volumes.remoteRoot) (filter : NameFilter)
    (entries : List Entry) : volumes.Curates (arrange filter volumes handle entries) := by
  have hcurated : volumes.Curates (volumes.arrangeRemote (visibleHandles filter entries)) :=
    volumes.curates_arrangeRemote fun _ => kind_of_visible
  simp only [arrange, VolumeMap.isRemoteTop, htop, decide_true, if_true]
  exact hcurated.perm (perm_sortSiblings _)

theorem kind_of_arranged {listed : Handle} (htop : handle.path ≠ volumes.remoteRoot)
    (h : listed ∈ arrange filter volumes handle entries) : listed.kind ≠ .searchRoot := by
  simp only [arrange, VolumeMap.isRemoteTop, htop, decide_false, Bool.false_eq_true, if_false,
    mem_sortSiblings] at h
  exact kind_of_visible h

/-- A fetched listing is curated exactly where the ticket's handle is a directory at the path of the
remote root, unless nothing has to be shown or hidden. -/
theorem curates_fetched_iff {σ : Type} {fs : FileSystem σ} {s : σ} {listing : Listing}
    (h : (fetchVisible fs filter volumes handle s).1 = .ok listing) :
    volumes.Curates listing.entries ↔
      (handle.kind ≠ .searchRoot ∧ handle.path = volumes.remoteRoot) ∨
        (volumes.searchRoots = [] ∧
          ∀ listed ∈ listing.entries, listed.name ∉ volumes.remoteHidden) := by
  have hlisted {entries : List Entry} (hkind : handle.kind ≠ .searchRoot) :
      volumes.Curates (arrange filter volumes handle entries) ↔
        (handle.kind ≠ .searchRoot ∧ handle.path = volumes.remoteRoot) ∨
          (volumes.searchRoots = [] ∧
            ∀ listed ∈ arrange filter volumes handle entries,
              listed.name ∉ volumes.remoteHidden) := by
    by_cases htop : handle.path = volumes.remoteRoot
    · exact iff_of_true (curates_arrange htop filter entries) (.inl ⟨hkind, htop⟩)
    · rw [volumes.curates_iff_of_plain fun _ => kind_of_arranged htop]
      simp [htop]
  rcases fetchVisible_ok h with ⟨hkind, rfl⟩ | ⟨hkind, hlist⟩ | ⟨found, hkind, _, _, hlist⟩
  · have hempty : ∀ handle ∈ Listing.empty.entries, handle.kind ≠ .searchRoot := by
      simp [Listing.empty]
    rw [volumes.curates_iff_of_plain hempty]
    simp [hkind]
  · obtain ⟨entries, _, rfl⟩ := listDirectory_ok hlist
    exact hlisted (by simp [hkind])
  · obtain ⟨entries, _, rfl⟩ := listDirectory_ok hlist
    exact hlisted (by simp [hkind])

/-- A session with no limits but its volumes. -/
def Scope.open (volumes : VolumeMap) : Scope := ⟨volumes, fun _ => True, fun _ => True⟩

theorem Action.within_open {σ : Type} (action : Action σ) : action.Within (.open volumes) :=
  action.within_of (fun _ _ _ => trivial) fun _ _ => trivial

namespace Session
variable {σ : Type}

/-- Whenever a listing is applied, the children of its node are curated exactly if the ticket's
handle is a directory at the path of the remote root, or if no shortcut and no hidden name has to be
taken care of. So the remote root stays curated where placeholders are resolved in place. -/
theorem run_curated_iff (fs : FileSystem σ) (filter : NameFilter) (volumes : VolumeMap)
    (world : σ) (actions : List (Action σ)) :
    let x := (start filter volumes world).run fs actions
    ∀ action,
      (x.act fs action).tree = (x.moves fs action).foldl TreeView.act x.tree ∧
    ∀ first ticket listing later,
      x.moves fs action = first ++ .apply ticket (.ok listing) :: later →
      let before := first.foldl TreeView.act x.tree
      ∀ outcome, (before.applyFetched ticket (.ok listing)).1 = .ok (.applied outcome) →
        let after := before.act (.apply ticket (.ok listing))
        (volumes.Curates (after.childHandles ticket.node) ↔
          (ticket.handle.kind ≠ .searchRoot ∧ ticket.handle.path = volumes.remoteRoot) ∨
            (volumes.searchRoots = [] ∧ ∀ handle ∈ after.childHandles ticket.node,
              handle.name ∉ volumes.remoteHidden)) ∧
        (fs.ResolvesInPlace → ticket.handle.kind ≠ .searchRoot →
          after.pathOf? ticket.node = some volumes.remoteRoot →
          volumes.Curates (after.childHandles ticket.node)) := by
  intro x action
  have hstart := wellFormed_start filter volumes world
  have hw : x.tree.WellFormed := wellFormed_run hstart fs actions
  refine ⟨(effect_act fs x action).eq_foldl hw, ?_⟩
  intro first ticket listing later hmoves before outcome hanswer after
  have hbefore : before.WellFormed := (effect_act fs x action).wellFormed_within hw hmoves
  obtain ⟨node, children, hlive, happlied⟩ := TreeView.applied_of_answer hbefore hanswer
  have hentries : after.childHandles ticket.node = listing.entries := happlied.childHandles
  obtain ⟨used, s, _, hfetch⟩ : (Scope.open volumes).Fetched fs ticket.handle listing := by
    have hwithin : x.Within fs (.open volumes) :=
      within_run hstart (within_start trivial world) fun action _ => action.within_open
    exact within_moves hw hwithin action.within_open _
      (hmoves ▸ List.mem_append_right first List.mem_cons_self)
  have hiff := curates_fetched_iff hfetch
  rw [hentries]
  refine ⟨hiff, fun hfs hkind hpath => hiff.mpr (.inl ⟨hkind, ?_⟩)⟩
  have hfit : x.Fits fs fun _ => True :=
    fits_run hstart hfs.gives (fits_start fs _ filter volumes world) actions
  have hrun := (effect_act fs x action).run hw hfit
  rw [hmoves] at hrun
  obtain ⟨hfirst, hrest⟩ := hrun.split
  have hnode : node.path = volumes.remoteRoot := by
    have hself := happlied.relisted.self
    simpa [TreeView.pathOf?, TreeView.node?, after, hself, Node.relisted] using hpath
  have hhandle := (hfirst.handlesFit hw hfs.gives hfit.handles _ _ hlive).1
  cases hrest with
  | cons allowed _ => exact (allowed.1 node hlive).trans (hhandle.trans hnode)

/-- A drive that is listed again keeps its shortcuts. -/
theorem endless_stays_curated :
    let volumes := Settings.unset.volumeMap
    let x := (start .everything volumes ()).run .endless
      [.operate (.select "/drive" 1), .issue 1 false, .keepLister, .fetch 0 0]
    let after := x.tree.act (.apply ⟨1, 2, .real "/drive", false⟩
      (.ok ⟨none, [.real "/drive/A", .real "/drive/b", .searchRoot "/drive_offline" "Offline",
        .searchRoot "/drive_recent" "Recent"]⟩))
    volumes.Curates (after.childHandles 1) := by
  obtain ⟨_, hcurated⟩ := run_curated_iff .endless .everything Settings.unset.volumeMap ()
    [.operate (.select "/drive" 1), .issue 1 false, .keepLister, .fetch 0 0] (.apply 0)
  exact (hcurated [] ⟨1, 2, .real "/drive", false⟩
    ⟨none, [.real "/drive/A", .real "/drive/b", .searchRoot "/drive_offline" "Offline",
      .searchRoot "/drive_recent" "Recent"]⟩ []
    (moves_apply (by decide +kernel)) ⟨0, 4, 0, []⟩ (by decide +kernel)).2
    endless_resolvesInPlace (by decide) (by decide +kernel)

/-- A drive that is resolved to another directory is curated when it is listed first, and no longer
when it is listed again. -/
theorem resolved_elsewhere_is_not_curated :
    let volumes := Settings.unset.volumeMap
    let world : Scripted :=
      { Scripted.empty with
        listings := [("/mnt", [.directory "/mnt/other", .directory "/mnt/root"])]
        resolutions := [("/drive", .real "/mnt")] }
    let ticket : Ticket := ⟨1, 2, .real "/mnt", false⟩
    let listing : Listing := ⟨none, [.real "/mnt/other", .real "/mnt/root"]⟩
    let x := (start .everything volumes world).run Scripted.fileSystem
      [.operate (.select "/drive" 1), .issue 1 false, .keepLister, .fetch 0 0]
    let after := (x.act Scripted.fileSystem (.apply 0)).tree
    volumes.Curates (x.tree.childHandles 1) ∧ x.results = [(ticket, .ok listing)] ∧
      (∃ outcome, (x.tree.applyFetched ticket (.ok listing)).1 = .ok (.applied outcome)) ∧
      after.pathOf? 1 = some volumes.remoteRoot ∧ ¬ volumes.Curates (after.childHandles 1) := by
  intro volumes world ticket listing x after
  have hresults : x.results = [(ticket, .ok listing)] := by decide +kernel
  have hlive : x.tree.arena.get? 1 =
      some ⟨"/drive", .real "/mnt", none, [2, 3, 4], true, true, 2⟩ := by decide +kernel
  have hw : x.tree.WellFormed := wellFormed_run (wellFormed_start ..) ..
  obtain ⟨outcome, merged, children, hmerged, happlied, _⟩ :=
    @TreeView.applyFetched_current _ _ ticket hw hlive rfl listing
  have hafter : after = merged := by
    simp only [after, act, hresults, List.getElem?_cons_zero, hmerged]
  refine ⟨by decide +kernel, hresults, ⟨outcome, congrArg Prod.fst hmerged⟩, ?_, ?_⟩
  · rw [hafter]
    exact congrArg (Option.map Node.path) happlied.relisted.self
  · rw [hafter, happlied.childHandles]
    decide +kernel

end Session

end LazyTree
