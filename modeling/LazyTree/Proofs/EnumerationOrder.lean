import LazyTree.Proofs.Handles
import LazyTree.FileSystem.Scripted
import LazyTree.Settings

/-!
What a listing depends on. Sorting leaves no trace of the order in which a filesystem enumerates a
directory, of its files, or of what the filter hides: filesystems that hold the same directories to
be shown give the same listing.
-/
namespace LazyTree
variable {σ τ : Type} {handles others : List Handle} {filter : NameFilter} {volumes : VolumeMap}

theorem sortSiblings_append (handles others : List Handle) :
    sortSiblings (handles ++ others) = (others.foldl (fun sorted h => insertReversed h sorted)
      (sortSiblings handles).reverse).reverse := by
  rw [sortSiblings, sortSiblings, List.foldl_append, List.reverse_reverse]

theorem sortSiblings_eq_of_perm (hperm : handles.Perm others) (hrank : Rankable handles)
    (hone : ∀ a ∈ handles, ∀ b ∈ handles, a.path = b.path → a = b) :
    sortSiblings handles = sortSiblings others := by
  have hsorted := pairwise_sortSiblings hrank
  have hsorted' : (sortSiblings others).Pairwise fun a b => siblingOrder a b ≠ .gt :=
    pairwise_sortSiblings (hrank.of_subset fun a ha => hperm.mem_iff.mpr ha)
  have hall : (sortSiblings handles).Perm (sortSiblings others) :=
    (perm_sortSiblings handles).trans (hperm.trans (perm_sortSiblings others).symm)
  refine hall.eq_of_pairwise (fun a b ha hb hab hba => ?_) hsorted hsorted'
  have heq : siblingOrder a b = .eq := by
    cases hcompare : siblingOrder a b with
    | lt =>
      rw [← siblingOrder_swap, hcompare] at hba
      exact absurd rfl hba
    | eq => rfl
    | gt => exact absurd hcompare hab
  exact hone a (mem_sortSiblings.mp ha) b (hperm.mem_iff.mpr (mem_sortSiblings.mp hb))
    (siblingOrder_eq_iff.mp heq)

namespace VolumeMap
variable {shown shown' : List Entry}

/-- How a directory below the remote root appears. -/
def relabelled (volumes : VolumeMap) (entry : Entry) : Handle :=
  if entry.name = volumes.myDrive then entry.toHandle.labelled volumes.myDriveLabel
  else entry.toHandle

/-- What there is to list in the directory `dir` that holds the directories `shown`. -/
def present (volumes : VolumeMap) (dir : String) (shown : List Entry) : List Handle :=
  if dir = volumes.remoteRoot then
    (shown.filter fun entry => entry.name ∉ volumes.remoteHidden).map volumes.relabelled ++
      volumes.searchRoots.map SearchRoot.handle
  else shown.map Entry.toHandle

/-- Nothing shares its path with another directory or with a shortcut. -/
structure TellsApart (volumes : VolumeMap) (shown : List Entry) : Prop where
  entries : ∀ a ∈ shown, ∀ b ∈ shown, a.path = b.path → a = b
  shortcuts : ∀ entry ∈ shown, ∀ root ∈ volumes.searchRoots, entry.path ≠ root.path

theorem relabelled_path (volumes : VolumeMap) (entry : Entry) :
    (volumes.relabelled entry).path = entry.path := by
  unfold relabelled
  split <;> rfl

theorem relabelled_name (volumes : VolumeMap) (entry : Entry) :
    (volumes.relabelled entry).name = entry.name := by
  unfold relabelled
  split <;> rfl

theorem present_of_top {dir : String} (htop : dir = volumes.remoteRoot) :
    volumes.present dir shown =
      (shown.filter fun entry => entry.name ∉ volumes.remoteHidden).map volumes.relabelled ++
        volumes.searchRoots.map SearchRoot.handle :=
  if_pos htop

theorem present_of_ne {dir : String} (htop : dir ≠ volumes.remoteRoot) :
    volumes.present dir shown = shown.map Entry.toHandle :=
  if_neg htop

theorem mem_present {dir : String} {handle : Handle} (h : handle ∈ volumes.present dir shown) :
    (∃ entry ∈ shown, handle.path = entry.path ∧ handle.name = entry.name) ∨
      ∃ root ∈ volumes.searchRoots, handle = root.handle := by
  unfold present at h
  split at h
  · rcases List.mem_append.mp h with h | h
    · obtain ⟨entry, hentry, rfl⟩ := List.mem_map.mp h
      exact .inl ⟨entry, List.mem_of_mem_filter hentry, volumes.relabelled_path entry,
        volumes.relabelled_name entry⟩
    · obtain ⟨root, hroot, rfl⟩ := List.mem_map.mp h
      exact .inr ⟨root, hroot, rfl⟩
  · obtain ⟨entry, hentry, rfl⟩ := List.mem_map.mp h
    exact .inl ⟨entry, hentry, rfl, rfl⟩

theorem TellsApart.rankable (h : volumes.TellsApart shown) (dir : String) :
    Rankable (volumes.present dir shown) := by
  refine rankable_of_agrees fun a ha b hb hpath => ?_
  rcases mem_present ha with ⟨entry, hentry, hapath, haname⟩ | ⟨root, hroot, rfl⟩ <;>
    rcases mem_present hb with ⟨entry', hentry', hbpath, hbname⟩ | ⟨root', hroot', rfl⟩
  · obtain rfl := h.entries entry hentry entry' hentry' (hapath ▸ hbpath ▸ hpath)
    rw [haname, hbname]
  · exact absurd (hapath.symm.trans hpath) (h.shortcuts entry hentry root' hroot')
  · exact absurd (hbpath.symm.trans hpath.symm) (h.shortcuts entry' hentry' root hroot)
  · exact congrArg (fun path => Text.lowercase (Path.lastName path)) hpath

theorem sorted_map_eq {handleOf : Entry → Handle}
    (hpath : ∀ entry, (handleOf entry).path = entry.path)
    (hone : ∀ a ∈ shown, ∀ b ∈ shown, a.path = b.path → a = b) (hperm : shown.Perm shown')
    (hrank : Rankable (shown.map handleOf)) :
    sortSiblings (shown.map handleOf) = sortSiblings (shown'.map handleOf) := by
  refine sortSiblings_eq_of_perm (hperm.map handleOf) hrank fun a ha b hb hsame => ?_
  obtain ⟨entry, hentry, rfl⟩ := List.mem_map.mp ha
  obtain ⟨entry', hentry', rfl⟩ := List.mem_map.mp hb
  rw [hpath, hpath] at hsame
  exact congrArg handleOf (hone entry hentry entry' hentry' hsame)

/-- The order of the directories does not matter. The shortcuts are added in an order of their own,
so those of one path may differ in their labels. -/
theorem TellsApart.sorted_eq (h : volumes.TellsApart shown) (hperm : shown.Perm shown')
    (dir : String) :
    sortSiblings (volumes.present dir shown) = sortSiblings (volumes.present dir shown') := by
  have hrank := h.rankable dir
  by_cases htop : dir = volumes.remoteRoot
  · rw [present_of_top htop] at hrank
    rw [present_of_top htop, present_of_top htop, sortSiblings_append, sortSiblings_append]
    congr 3
    refine sorted_map_eq volumes.relabelled_path (fun a ha b hb => ?_) (hperm.filter _)
      (hrank.of_subset fun _ => List.mem_append_left _)
    exact h.entries a (List.mem_of_mem_filter ha) b (List.mem_of_mem_filter hb)
  · rw [present_of_ne htop] at hrank
    rw [present_of_ne htop, present_of_ne htop]
    exact sorted_map_eq (fun _ => rfl) h.entries hperm hrank

end VolumeMap

theorem arrange_eq (filter : NameFilter) (volumes : VolumeMap) (handle : Handle)
    (entries : List Entry) : arrange filter volumes handle entries =
      sortSiblings (volumes.present handle.path (entries.filter filter.shows)) := by
  by_cases htop : handle.path = volumes.remoteRoot
  · rw [VolumeMap.present_of_top htop]
    simp [arrange, VolumeMap.isRemoteTop, htop, VolumeMap.arrangeRemote, visibleHandles,
      List.filter_map, Function.comp_def]
    rfl
  · rw [VolumeMap.present_of_ne htop]
    simp [arrange, VolumeMap.isRemoteTop, htop, visibleHandles]

/-- The directory that is listed for a handle: a placeholder is resolved first. -/
def FileSystem.directoryOf (fs : FileSystem σ) (handle : Handle) (s : σ) :
    Except IoError Handle × σ :=
  if handle.isUnresolved then fs.resolve s handle.path else (.ok handle, s)

/-- What takes the place of a handle whose directory was found. -/
def Handle.replacement (handle dir : Handle) : Option Handle :=
  if handle.isUnresolved then some { dir with label := dir.label.or handle.label } else none

theorem fetchVisible_eq (fs : FileSystem σ) (filter : NameFilter) (volumes : VolumeMap)
    {handle : Handle} (hkind : handle.kind ≠ .searchRoot) (s : σ) :
    (fetchVisible fs filter volumes handle s).1 =
      match fs.directoryOf handle s with
      | (.error e, _) => .error (.io e)
      | (.ok dir, s') =>
        if dir.isUnresolved then .error (.unresolvedPlaceholder handle.path)
        else (listDirectory fs filter volumes handle (handle.replacement dir) dir.path s').1 := by
  unfold fetchVisible FileSystem.directoryOf Handle.replacement
  cases hk : handle.kind with
  | real => simp [Handle.isUnresolved, hk]
  | placeholder =>
    simp only [Handle.isUnresolved, hk, decide_true, if_true]
    generalize fs.resolve s handle.path = result
    obtain ⟨_ | found, s'⟩ := result
    · rfl
    · exact apply_ite Prod.fst ..
  | searchRoot => exact absurd hk hkind

theorem listDirectory_of_ok {fs : FileSystem σ} {handle : Handle} {resolved : Option Handle}
    {dir : String} {s : σ} {entries : List Entry} (h : (fs.enumerate s dir).1 = .ok entries) :
    (listDirectory fs filter volumes handle resolved dir s).1 =
      .ok ⟨resolved, sortSiblings (volumes.present handle.path (entries.filter filter.shows))⟩ := by
  unfold listDirectory
  generalize fs.enumerate s dir = result at h ⊢
  obtain ⟨answer, s'⟩ := result
  obtain rfl : answer = .ok entries := h
  rw [← arrange_eq]

/-- Two filesystems, in any states, that find the same directory for a handle and, in whatever order
and among whatever else, the same directories to be shown in it, give the same listing. It holds
what there is to list, and nothing in it comes after what follows it. -/
theorem fetchVisible_forgets_order (fs : FileSystem σ) (fs' : FileSystem τ) (filter : NameFilter)
    (volumes : VolumeMap) (handle : Handle) (s : σ) (t : τ) (hkind : handle.kind ≠ .searchRoot)
    (hsame : (fs.directoryOf handle s).1 = (fs'.directoryOf handle t).1)
    (hlists : ∀ dir, (fs.directoryOf handle s).1 = .ok dir → dir.isUnresolved = false →
      ∃ entries entries',
        (fs.enumerate (fs.directoryOf handle s).2 dir.path).1 = .ok entries ∧
        (fs'.enumerate (fs'.directoryOf handle t).2 dir.path).1 = .ok entries' ∧
        (entries.filter filter.shows).Perm (entries'.filter filter.shows) ∧
        volumes.TellsApart (entries.filter filter.shows)) :
    (fetchVisible fs filter volumes handle s).1 = (fetchVisible fs' filter volumes handle t).1 ∧
      ∀ dir, (fs.directoryOf handle s).1 = .ok dir → dir.isUnresolved = false →
        ∀ entries, (fs.enumerate (fs.directoryOf handle s).2 dir.path).1 = .ok entries →
          ∃ listing, (fetchVisible fs filter volumes handle s).1 = .ok listing ∧
            listing.entries.Perm
              (volumes.present handle.path (entries.filter filter.shows)) ∧
            listing.entries.Pairwise fun a b => siblingOrder a b ≠ .gt := by
  rw [fetchVisible_eq fs filter volumes hkind, fetchVisible_eq fs' filter volumes hkind]
  generalize fs.directoryOf handle s = found at hsame hlists ⊢
  generalize fs'.directoryOf handle t = found' at hsame hlists ⊢
  obtain ⟨answer, s'⟩ := found
  obtain ⟨answer', t'⟩ := found'
  obtain rfl : answer = answer' := hsame
  cases answer with
  | error e => exact ⟨rfl, fun _ hdir => nomatch hdir⟩
  | ok dir =>
    cases hunresolved : dir.isUnresolved with
    | true =>
      refine ⟨by simp [hunresolved], fun dir' hdir hresolved => ?_⟩
      obtain rfl := Except.ok.inj hdir
      simp [hunresolved] at hresolved
    | false =>
      obtain ⟨entries, entries', hentries, hentries', hperm, happart⟩ := hlists dir rfl hunresolved
      simp only [hunresolved, Bool.false_eq_true, if_false]
      rw [listDirectory_of_ok hentries, listDirectory_of_ok hentries',
        happart.sorted_eq hperm handle.path]
      refine ⟨rfl, fun dir' hdir _ again hagain => ⟨_, rfl, ?_⟩⟩
      obtain rfl := Except.ok.inj hdir
      obtain rfl := Except.ok.inj (hentries.symm.trans hagain)
      rw [← happart.sorted_eq hperm handle.path]
      exact ⟨perm_sortSiblings _, pairwise_sortSiblings (happart.rankable handle.path)⟩

/-- A drive enumerated in two orders, with names that differ in case only, reserved and hidden
directories, and a file that only one of the two filesystems has. -/
theorem drive_forgets_order :
    let volumes := Settings.unset.volumeMap
    let world : Scripted :=
      { Scripted.empty with
        listings := [("/drive", [.directory "/drive/b", .file "/drive/x", .directory "/drive/root",
          .directory "/drive/.cache", .directory "/drive/B", .directory "/drive/other"])] }
    let world' : Scripted :=
      { Scripted.empty with
        listings := [("/drive", [.directory "/drive/other", .directory "/drive/B",
          .directory "/drive/root", .directory "/drive/b"])] }
    let handle : Handle := .placeholder "/drive"
    (fetchVisible Scripted.fileSystem .hideDotNames volumes handle world).1 =
      (fetchVisible Scripted.plainFileSystem .hideDotNames volumes handle world').1 := by
  intro volumes world world' handle
  refine (fetchVisible_forgets_order Scripted.fileSystem Scripted.plainFileSystem .hideDotNames
    volumes handle world world' (by decide) (by decide +kernel) ?_).1
  intro dir hdir _
  have hfound : (Scripted.fileSystem.directoryOf handle world).1 = .ok (.real "/drive") := by
    decide +kernel
  obtain rfl := Except.ok.inj (hfound.symm.trans hdir)
  exact ⟨_, _, rfl, rfl, by decide +kernel, by decide +kernel, by decide +kernel⟩

end LazyTree
