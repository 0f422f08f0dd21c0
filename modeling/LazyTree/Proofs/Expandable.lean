import LazyTree.Proofs.EnumerationOrder

/-!
The check for a child. It looks at the directories that the filter shows, the listing also at the
names that are reserved below the remote root. They differ on a remote root without shortcuts in
which every directory has a reserved name, and nowhere else.
-/
namespace LazyTree
variable {σ : Type} {fs : FileSystem σ} {filter : NameFilter} {volumes : VolumeMap} {s t : σ}
variable {handle : Handle} {found : Bool}

namespace VolumeMap
variable {dir : String} {shown : List Entry}

/-- The directories to be shown in `dir` all have names that the remote root reserves, and no
shortcut is listed in their place. -/
structure ReservesAll (volumes : VolumeMap) (dir : String) (shown : List Entry) : Prop where
  top : dir = volumes.remoteRoot
  no_shortcut : volumes.searchRoots = []
  some_shown : shown ≠ []
  reserved : ∀ entry ∈ shown, entry.name ∈ volumes.remoteHidden

theorem present_ne_nil_iff : volumes.present dir shown ≠ [] ↔
    (dir = volumes.remoteRoot ∧ volumes.searchRoots ≠ [] ∨ shown ≠ []) ∧
      ¬ volumes.ReservesAll dir shown := by
  by_cases htop : dir = volumes.remoteRoot
  · have hempty : volumes.present dir shown = [] ↔
        (∀ entry ∈ shown, entry.name ∈ volumes.remoteHidden) ∧ volumes.searchRoots = [] := by
      simp [present_of_top htop, List.filter_eq_nil_iff]
    rw [ne_eq, hempty]
    constructor
    · intro h
      refine ⟨?_, fun hall => h ⟨hall.reserved, hall.no_shortcut⟩⟩
      by_cases hroots : volumes.searchRoots = []
      · exact .inr fun hnil => h ⟨by simp [hnil], hroots⟩
      · exact .inl ⟨htop, hroots⟩
    · rintro ⟨hsome, hnot⟩ ⟨hreserved, hroots⟩
      rcases hsome with ⟨_, hsome⟩ | hsome
      · exact hsome hroots
      · exact hnot ⟨htop, hroots, hsome, hreserved⟩
  · have hnot : ¬ volumes.ReservesAll dir shown := fun hall => htop hall.top
    simp [present_of_ne htop, htop, hnot]

end VolumeMap

theorem wouldListAny_eq_true_iff {entries : List Entry}
    (hchecks : fs.holdsDirectory = FileSystem.holdsDirectoryByListing fs.enumerate)
    (hkind : handle.kind = .real) (hentries : (fs.enumerate t handle.path).1 = .ok entries)
    (hcheck : (wouldListAny fs filter volumes handle t).1 = .ok found) :
    found = true ↔ handle.path = volumes.remoteRoot ∧ volumes.searchRoots ≠ [] ∨
      entries.filter filter.shows ≠ [] := by
  unfold wouldListAny at hcheck
  simp only [hkind] at hcheck
  split at hcheck
  · rename_i htop
    have hshortcuts : handle.path = volumes.remoteRoot ∧ volumes.searchRoots ≠ [] := by
      simpa [VolumeMap.isRemoteTop] using htop
    exact iff_of_true (Except.ok.inj hcheck).symm (.inl hshortcuts)
  · rename_i htop
    have hnot : ¬ (handle.path = volumes.remoteRoot ∧ volumes.searchRoots ≠ []) := by
      simpa [VolumeMap.isRemoteTop] using htop
    rw [hchecks] at hcheck
    unfold FileSystem.holdsDirectoryByListing at hcheck
    generalize fs.enumerate t handle.path = result at hentries hcheck
    obtain ⟨answer, t'⟩ := result
    obtain rfl : answer = .ok entries := hentries
    obtain rfl := Except.ok.inj hcheck
    simp [hnot, List.filter_eq_nil_iff]

/-- On a filesystem that checks by listing and holds still, a check of a directory and its listing
agree exactly if not every directory to be shown is reserved; and what is listed is always
announced. -/
theorem wouldListAny_agrees_iff (fs : FileSystem σ) (filter : NameFilter) (volumes : VolumeMap)
    (handle : Handle) (s t : σ) (listing : Listing) (found : Bool)
    (hchecks : fs.holdsDirectory = FileSystem.holdsDirectoryByListing fs.enumerate)
    (hsame : (fs.enumerate t handle.path).1 = (fs.enumerate s handle.path).1)
    (hkind : handle.kind = .real)
    (hfetch : (fetchVisible fs filter volumes handle s).1 = .ok listing)
    (hcheck : (wouldListAny fs filter volumes handle t).1 = .ok found) :
    ((found = true ↔ listing.entries ≠ []) ↔
      ∀ entries, (fs.enumerate s handle.path).1 = .ok entries →
        ¬ volumes.ReservesAll handle.path (entries.filter filter.shows)) ∧
    (listing.entries ≠ [] → found = true) := by
  rcases fetchVisible_ok hfetch with ⟨hroot, _⟩ | ⟨_, hlist⟩ | ⟨_, hplaceholder, _⟩
  · simp [hkind] at hroot
  · obtain ⟨entries, hentries, rfl⟩ := listDirectory_ok hlist
    have hfound := wouldListAny_eq_true_iff hchecks hkind (hsame.trans hentries) hcheck
    have hlisted : arrange filter volumes handle entries ≠ [] ↔
        found = true ∧ ¬ volumes.ReservesAll handle.path (entries.filter filter.shows) := by
      rw [arrange_eq, ne_eq, sortSiblings_eq_nil_iff, ← ne_eq, VolumeMap.present_ne_nil_iff, hfound]
    refine ⟨?_, fun h => (hlisted.mp h).1⟩
    rw [hlisted]
    constructor
    · intro hagree again hagain
      obtain rfl := Except.ok.inj (hentries.symm.trans hagain)
      intro hall
      exact (hagree.mp (hfound.mpr (.inr hall.some_shown))).2 hall
    · intro h
      exact ⟨fun hyes => ⟨hyes, h entries hentries⟩, And.left⟩
  · simp [hkind] at hplaceholder

/-- A drive without shortcuts that holds a reserved directory and another one. -/
theorem drive_check_agrees :
    let volumes : VolumeMap := { Settings.unset.volumeMap with searchRoots := [] }
    let world : Scripted :=
      { Scripted.empty with
        listings := [("/drive", [.directory "/drive/other", .directory "/drive/root"])] }
    let drive : Handle := .real "/drive"
    let fetched := fetchVisible Scripted.plainFileSystem .everything volumes drive world
    let checked := wouldListAny Scripted.plainFileSystem .everything volumes drive fetched.2
    ∃ listing found, fetched.1 = .ok listing ∧ checked.1 = .ok found ∧
      (found = true ↔ listing.entries ≠ []) := by
  intro volumes world drive fetched checked
  have hfetch : fetched.1 =
      .ok ⟨none, [(Handle.real "/drive/root").labelled "My Drive"]⟩ := by decide +kernel
  have hcheck : checked.1 = .ok true := by decide +kernel
  refine ⟨_, _, hfetch, hcheck, (wouldListAny_agrees_iff Scripted.plainFileSystem .everything
    volumes drive world fetched.2 _ true rfl rfl rfl hfetch hcheck).1.mpr ?_⟩
  intro entries hentries hall
  obtain rfl := Except.ok.inj hentries
  exact absurd (hall.reserved (.directory "/drive/root") (by decide +kernel)) (by decide +kernel)

/-- A drive without shortcuts that holds nothing but a reserved directory is announced as holding a
child and lists none. -/
theorem reserved_drive_announces :
    let volumes : VolumeMap := { Settings.unset.volumeMap with searchRoots := [] }
    let world : Scripted :=
      { Scripted.empty with listings := [("/drive", [.directory "/drive/other"])] }
    let drive : Handle := .real "/drive"
    let fetched := fetchVisible Scripted.plainFileSystem .everything volumes drive world
    let checked := wouldListAny Scripted.plainFileSystem .everything volumes drive fetched.2
    fetched.1 = .ok ⟨none, []⟩ ∧ checked.1 = .ok true := by
  decide +kernel

end LazyTree
