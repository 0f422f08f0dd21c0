import LazyTree.Proofs.Lookup
import LazyTree.Proofs.Visited

/-!
The way to a path leads down from the root of its volume, name by name. Each directory on it serves
if it can be resolved and listed, and offers those that it lists and a tree shows.
-/
namespace LazyTree
variable {σ : Type} {fs : FileSystem σ} {s t : σ} {volumes : VolumeMap} {filter : NameFilter}

namespace Path
variable {dir name next target : String} {names : List String}

def wayDown : String → List String → List String
  | dir, [] => [dir]
  | dir, name :: names => dir :: wayDown (child dir name) names

example : wayDown "/a" ["b", "c"] = ["/a", "/a/b", "/a/b/c"] := by decide

theorem wayDown_eq_cons (dir : String) (names : List String) :
    ∃ rest, wayDown dir names = dir :: rest := by
  cases names with
  | nil => exact ⟨[], rfl⟩
  | cons name names => exact ⟨_, rfl⟩

theorem isName_of_way (hway : segments target = segments dir ++ name :: names) : IsName name := by
  have hmem : name ∈ segments target := by simp [hway]
  exact isName_of_mem_segments hmem

theorem way_below (hway : segments target = segments dir ++ name :: names) :
    segments target = segments (child dir name) ++ names := by
  rw [segments_child dir (isName_of_way hway), hway, List.append_assoc, List.singleton_append]

theorem Normal.covers_child_iff (hdir : Normal dir) (hname : IsName name) (htarget : Normal target)
    (hway : segments target = segments dir ++ next :: names) :
    covers (Path.child dir name) target = true ↔ name = next := by
  rw [(hdir.child hname).covers_iff htarget, segments_child dir hname, hway,
    List.prefix_append_right_inj]
  simp [List.cons_prefix_cons]

end Path

namespace VolumeMap
variable {target : String}

theorem Normalized.rootOf_prefix (h : volumes.Normalized) (htarget : Path.Normal target)
    (hplain : ∀ root ∈ volumes.searchRoots, Path.covers root.path target = false) :
    Path.segments (volumes.rootOf target) <+: Path.segments target := by
  have hfirst (count : Nat) :
      Path.segments (Path.firstSegments target count) <+: Path.segments target := by
    rw [htarget.segments_firstSegments]
    exact List.take_prefix ..
  unfold VolumeMap.rootOf
  split
  · rename_i hremote
    have hnone : volumes.searchRoots.any (fun root => Path.covers root.path target) = false := by
      simpa using hplain
    rw [isRemote, hnone, Bool.or_false] at hremote
    exact (h.remoteRoot.covers_iff htarget).mp hremote
  · split
    · exact hfirst _
    · exact hfirst _

/-- The directories from the root of a path's volume down to the path. -/
def wayTo (volumes : VolumeMap) (target : String) : List String :=
  let top := volumes.rootOf target
  Path.wayDown top ((Path.segments target).drop (Path.segments top).length)

example : Settings.unset.volumeMap.wayTo "/drive/a" = ["/drive", "/drive/a"] := by decide +kernel

theorem Normalized.segments_rootOf_append (h : volumes.Normalized) (htarget : Path.Normal target)
    (hplain : ∀ root ∈ volumes.searchRoots, Path.covers root.path target = false) :
    Path.segments target = Path.segments (volumes.rootOf target) ++
      (Path.segments target).drop (Path.segments (volumes.rootOf target)).length :=
  (List.prefix_iff_eq_append.mp (h.rootOf_prefix htarget hplain)).symm

end VolumeMap

namespace FileSystem

/-- A directory can be resolved, and listed. -/
structure Serves (fs : FileSystem σ) (s : σ) (dir : String) : Prop where
  resolves : ∃ found, (fs.resolve s dir).1 = .ok found ∧ found.kind = .real
  lists : ∃ entries, (fs.enumerate s dir).1 = .ok entries

/-- A path is listed in a directory, and the tree shows what it is listed as. -/
def Offers (fs : FileSystem σ) (s : σ) (filter : NameFilter) (volumes : VolumeMap)
    (dir path : String) : Prop :=
  ∃ entries, (fs.enumerate s dir).1 = .ok entries ∧ ∃ entry ∈ entries, entry.path = path ∧
    filter.shows entry = true ∧ (dir = volumes.remoteRoot → entry.name ∉ volumes.remoteHidden)

theorem endless_serves (dir : String) : endless.Serves () dir where
  resolves := ⟨_, rfl, rfl⟩
  lists := ⟨_, rfl⟩

theorem endless_offers_iff {dir path : String} (h : dir ≠ volumes.remoteRoot) :
    endless.Offers () .everything volumes dir path ↔
      path = Path.child dir "b" ∨ path = Path.child dir "A" := by
  constructor
  · rintro ⟨entries, hentries, entry, hentry, rfl, _⟩
    obtain rfl : _ = entries := Except.ok.inj hentries
    rcases List.mem_cons.mp hentry with rfl | hentry
    · exact .inl rfl
    · obtain rfl := List.mem_singleton.mp hentry
      exact .inr rfl
  · have hshows {entry : Entry} (hdirectory : entry.isDirectory = true) :
        NameFilter.everything.shows entry = true := by
      simp [NameFilter.shows, hdirectory, NameFilter.admitsEntry, NameFilter.admits,
        NameFilter.everything]
    rintro (rfl | rfl)
    · exact ⟨_, rfl, _, List.mem_cons_self, rfl, hshows rfl, fun htop => absurd htop h⟩
    · exact ⟨_, rfl, _, List.mem_cons_of_mem _ List.mem_cons_self, rfl, hshows rfl,
        fun htop => absurd htop h⟩

end FileSystem

theorem mem_paths_arrange {handle : Handle} {entries : List Entry} {path : String}
    (hplain : ∀ root ∈ volumes.searchRoots, root.path ≠ path) :
    path ∈ (arrange filter volumes handle entries).map Handle.path ↔
      ∃ entry ∈ entries, entry.path = path ∧ filter.shows entry = true ∧
        (handle.path = volumes.remoteRoot → entry.name ∉ volumes.remoteHidden) := by
  have hlabel (handle : Handle) : (if handle.name = volumes.myDrive
      then handle.labelled volumes.myDriveLabel else handle).path = handle.path := by
    split <;> rfl
  have hroots : path ∉ (volumes.searchRoots.map SearchRoot.handle).map Handle.path := by
    simpa [SearchRoot.handle, Handle.searchRoot, Handle.ofPath] using hplain
  rw [arrange, ((perm_sortSiblings _).map Handle.path).mem_iff]
  by_cases htop : handle.path = volumes.remoteRoot
  · rw [if_pos (by simpa [VolumeMap.isRemoteTop] using htop), VolumeMap.arrangeRemote,
      List.map_append, List.mem_append, or_iff_left hroots, List.map_map]
    simp only [Function.comp_def, hlabel, visibleHandles, htop, forall_const, List.mem_map,
      List.mem_filter, Bool.not_eq_true', List.contains_eq_mem, decide_eq_false_iff_not]
    constructor
    · rintro ⟨_, ⟨⟨entry, ⟨hentry, hshows⟩, rfl⟩, hhidden⟩, rfl⟩
      exact ⟨entry, hentry, rfl, hshows, hhidden⟩
    · rintro ⟨entry, hentry, rfl, hshows, hhidden⟩
      exact ⟨entry.toHandle, ⟨⟨entry, ⟨hentry, hshows⟩, rfl⟩, hhidden⟩, rfl⟩
  · rw [if_neg (by simpa [VolumeMap.isRemoteTop] using htop)]
    simp only [visibleHandles, htop, false_implies, and_true, List.mem_map, List.mem_filter]
    constructor
    · rintro ⟨_, ⟨entry, ⟨hentry, hshows⟩, rfl⟩, rfl⟩
      exact ⟨entry, hentry, rfl, hshows⟩
    · rintro ⟨entry, hentry, rfl, hshows⟩
      exact ⟨entry.toHandle, ⟨entry, ⟨hentry, hshows⟩, rfl⟩, rfl⟩

theorem fetchVisible_of_serves (hs : fs.Steady s) (ht : fs.Asked s t) (hfs : fs.ResolvesInPlace)
    {handle : Handle} (hkind : handle.kind ≠ .searchRoot) (h : fs.Serves s handle.path) :
    ∃ listing entries, (fetchVisible fs filter volumes handle t).1 = .ok listing ∧
      (fs.enumerate s handle.path).1 = .ok entries ∧
      listing.entries = arrange filter volumes handle entries := by
  obtain ⟨entries, hentries⟩ := h.lists
  have hlisted {world : σ} (hworld : fs.Asked s world) (resolved : Option Handle) :
      (listDirectory fs filter volumes handle resolved handle.path world).1 =
        .ok ⟨resolved, arrange filter volumes handle entries⟩ := by
    have hsame := (hs.enumerate hworld handle.path).trans hentries
    unfold listDirectory
    generalize fs.enumerate world handle.path = result at hsame ⊢
    obtain ⟨answer, _⟩ := result
    obtain rfl : answer = .ok entries := hsame
    rfl
  rw [fetchVisible_steady hs ht]
  unfold fetchVisible
  cases hk : handle.kind with
  | searchRoot => exact absurd hk hkind
  | real => exact ⟨_, entries, hlisted .nothing none, hentries, rfl⟩
  | placeholder =>
    obtain ⟨found, hfound, hreal⟩ := h.resolves
    have hworld : fs.Asked s (fs.resolve s handle.path).2 := .resolve .nothing handle.path
    have hpath : found.path = handle.path := (hfs hfound).1
    have hresolved : found.isUnresolved = false := by simp [Handle.isUnresolved, hreal]
    generalize fs.resolve s handle.path = result at hfound hworld ⊢
    obtain ⟨answer, world⟩ := result
    obtain rfl : answer = .ok found := hfound
    simp only [hresolved, Bool.false_eq_true, if_false, hpath]
    exact ⟨_, entries, hlisted hworld _, hentries, rfl⟩

end LazyTree
