import LazyTree.Proofs.Descent
import LazyTree.Proofs.HostPaths

/-!
A mounted directory as the filesystem of a tree. The disk may be another at every request; what it
lists always lies right below the directory that was asked for, by names that the disk has.
-/
namespace LazyTree.Host
variable {σ : Type} {fs : FileSystem σ} {mount : Mount} {disk : Disk}

def IsItemName (name : String) : Prop := Path.IsName name ∧ name ≠ ".."

instance : DecidablePred IsItemName := fun name =>
  inferInstanceAs (Decidable ((name ≠ "" ∧ name ≠ "." ∧ '/' ∉ name.toList) ∧ name ≠ ".."))

def Disk.Proper (disk : Disk) : Prop := ∀ row ∈ disk.items, ∀ name ∈ row.1, IsItemName name

instance (disk : Disk) : Decidable disk.Proper :=
  inferInstanceAs (Decidable (∀ row ∈ disk.items, ∀ name ∈ row.1, IsItemName name))

theorem Disk.Proper.isItemName (h : disk.Proper) {location : Location} {row : String × DiskItem}
    (hrow : row ∈ disk.itemsIn location) : IsItemName row.1 := by
  obtain ⟨item, hitem, heq⟩ := List.mem_filterMap.mp hrow
  split at heq
  · rename_i name hlast
    split at heq
    · obtain rfl := Option.some.inj heq
      exact h item hitem name (List.mem_of_getLast? hlast)
    · cases heq
  · cases heq

namespace Mount

theorem entryOf?_below {dir : String} {row : String × DiskItem} {entry : Entry}
    (h : mount.entryOf? disk dir row = some entry) :
    entry.name = row.1 ∧ entry.path = Path.child dir row.1 := by
  unfold entryOf? at h
  split at h
  · obtain rfl := Option.some.inj h
    exact ⟨rfl, rfl⟩
  · obtain rfl := Option.some.inj h
    exact ⟨rfl, rfl⟩
  · split at h
    · obtain rfl := Option.some.inj h
      exact ⟨rfl, rfl⟩
    · cases h

theorem mem_listing (hdisk : disk.Proper) {dir : String} {entries : List Entry}
    (h : mount.listing disk dir = .ok entries) {entry : Entry} (hentry : entry ∈ entries) :
    entry.path = Path.child dir entry.name ∧ IsItemName entry.name := by
  unfold listing at h
  split at h
  · rename_i rows hrows
    obtain rfl := Except.ok.inj h
    obtain ⟨row, hrow, heq⟩ := List.mem_filterMap.mp hentry
    obtain ⟨hname, hpath⟩ := entryOf?_below heq
    unfold Disk.readDirectory at hrows
    split at hrows
    · cases hrows
    · split at hrows
      · obtain rfl := Except.ok.inj hrows
        exact ⟨hname ▸ hpath, hname ▸ hdisk.isItemName hrow⟩
      · cases hrows
  · cases h

theorem resolution_path {path : String} {found : Handle}
    (h : mount.resolution disk path = .ok found) : found.path = path := by
  unfold resolution at h
  split at h
  · split at h
    · obtain rfl := Except.ok.inj h
      rfl
    · cases h
  · split at h
    · obtain rfl := Except.ok.inj h
      rfl
    · cases h

/-- What is listed and what is resolved is what the mounted directory of some disk has there. Each
request may be of another disk, and any request may fail. -/
structure Serves (mount : Mount) (fs : FileSystem σ) : Prop where
  enumerate : ∀ {s dir entries}, (fs.enumerate s dir).1 = .ok entries →
    ∃ disk : Disk, disk.Proper ∧ mount.listing disk dir = .ok entries
  resolve : ∀ {s path found}, (fs.resolve s path).1 = .ok found →
    ∃ disk : Disk, mount.resolution disk path = .ok found

theorem Serves.listsBelow (h : mount.Serves fs) (Filter : NameFilter → Prop) :
    fs.ListsBelow Filter fun name =>
      IsItemName name ∧ ∃ filter, Filter filter ∧ filter.admits name = true where
  listed := by
    intro s dir entries filter hentries hfilter entry hentry hshows
    obtain ⟨disk, hdisk, hlisting⟩ := h.enumerate hentries
    obtain ⟨hpath, hname⟩ := mem_listing hdisk hlisting hentry
    exact ⟨hpath, hname, filter, hfilter, (Bool.and_eq_true_iff.mp hshows).2⟩
  in_place := by
    intro s path found hfound
    obtain ⟨disk, hresolution⟩ := h.resolve hfound
    exact resolution_path hresolution

end Mount

def Disk.nested : Disk :=
  ⟨[(["srv"], .directory), (["srv", "a"], .directory), (["srv", "a", "b"], .directory)], []⟩

/-- Paths of a mount at `/srv` that lead to directories of this disk, with where they lead and what
is listed there. -/
def nestedRows : List (String × Location × List Entry) :=
  [("/a", ["srv", "a"], [.directory "/a/b"]),
    ("/a/b", ["srv", "a", "b"], []),
    ("/..", [], [.directory "/../srv"]),
    ("/../srv", ["srv"], [.directory "/../srv/a"])]

theorem mem_nestedRows {path : String} {row : Location × List Entry}
    (h : nestedRows.lookup path = some row) : (path, row) ∈ nestedRows := by
  obtain ⟨first, later, heq, _⟩ := List.lookup_eq_some_iff.mp h
  rw [heq]
  exact List.mem_append_right first List.mem_cons_self

theorem locate_nested : ∀ row ∈ nestedRows,
    Disk.nested.locate (Mount.onHost ⟨"/srv"⟩ row.1) = .ok row.2.1 := by
  have hhosts : nestedRows.map (fun row => Mount.onHost ⟨"/srv"⟩ row.1) =
      ["/srv/a", "/srv/a/b", "/srv/..", "/srv/../srv"] := by decide +kernel
  have hsteps : ["/srv/a", "/srv/a/b", "/srv/..", "/srv/../srv"].map steps =
      [[.enter "srv", .enter "a"], [.enter "srv", .enter "a", .enter "b"], [.enter "srv", .up],
        [.enter "srv", .up, .enter "srv"]] := by decide +kernel
  simp only [nestedRows, List.map_cons, List.cons.injEq] at hhosts hsteps
  simp only [nestedRows, List.forall_mem_cons, hhosts, Disk.locate, hsteps]
  simp [Disk.walk, Disk.nested, Disk.isDirectory, Disk.item?, List.lookup_cons]
  decide +kernel

end LazyTree.Host

namespace LazyTree
open Host

/-- The answers of that disk mounted at `/srv`, those for the rows written out. -/
def FileSystem.nested : FileSystem Unit :=
  .ofListing
    (fun s dir => (match nestedRows.lookup dir with
      | some row => .ok row.2
      | none => Mount.listing ⟨"/srv"⟩ .nested dir, s))
    (fun s path => (match nestedRows.lookup path with
      | some _ => .ok (.real path)
      | none => Mount.resolution ⟨"/srv"⟩ .nested path, s))

theorem Host.Mount.serves_nested : Mount.Serves ⟨"/srv"⟩ .nested where
  enumerate := by
    intro s dir entries hentries
    refine ⟨.nested, by decide, hentries ▸ ?_⟩
    have hrows : ∀ row ∈ nestedRows,
        Disk.nested.isDirectory row.2.1 = true ∧
          (Disk.nested.itemsIn row.2.1).filterMap (entryOf? ⟨"/srv"⟩ .nested row.1) = row.2.2 := by
      decide +kernel
    simp only [FileSystem.nested, FileSystem.ofListing]
    split
    · rename_i row hlookup
      have hmem := mem_nestedRows hlookup
      obtain ⟨hdirectory, hitems⟩ := hrows _ hmem
      simp only [listing, Disk.readDirectory, locate_nested _ hmem, hdirectory, if_true, hitems]
    · rfl
  resolve := by
    intro s path found hfound
    refine ⟨.nested, hfound ▸ ?_⟩
    have hrows : ∀ row ∈ nestedRows, Disk.nested.isDirectory row.2.1 = true := by decide +kernel
    simp only [FileSystem.nested, FileSystem.ofListing]
    split
    · rename_i row hlookup
      have hmem := mem_nestedRows hlookup
      simp only [resolution, locate_nested _ hmem, hrows _ hmem, if_true]
    · rfl

end LazyTree
