import LazyTree.SiblingOrder
import LazyTree.FileSystem
import LazyTree.VolumeMap

/-!
The listing of a directory as the tree shows it.
-/
namespace LazyTree

structure Listing where
  /-- The directory that took the place of a placeholder. -/
  resolved : Option Handle
  /-- The visible sub-directories in sibling order. -/
  entries : List Handle
deriving DecidableEq, Repr, Inhabited

def Listing.empty : Listing := ⟨none, []⟩

def visibleHandles (filter : NameFilter) (entries : List Entry) : List Handle :=
  (entries.filter filter.shows).map Entry.toHandle

/-- What a tree makes of the items found in the directory of `handle`. -/
def arrange (filter : NameFilter) (volumes : VolumeMap) (handle : Handle)
    (entries : List Entry) : List Handle :=
  let visible := visibleHandles filter entries
  sortSiblings (if volumes.isRemoteTop handle.path then volumes.arrangeRemote visible else visible)

variable {σ : Type}

def listDirectory (fs : FileSystem σ) (filter : NameFilter) (volumes : VolumeMap)
    (handle : Handle) (resolved : Option Handle) (dir : String) (s : σ) :
    Except Failure Listing × σ :=
  match fs.enumerate s dir with
  | (.error e, s') => (.error (.io e), s')
  | (.ok entries, s') => (.ok ⟨resolved, arrange filter volumes handle entries⟩, s')

/-- The visible sub-directories of `handle`. A placeholder is resolved first, in one attempt, and
keeps its label where the resolution brings none; search roots have no children. -/
def fetchVisible (fs : FileSystem σ) (filter : NameFilter) (volumes : VolumeMap)
    (handle : Handle) (s : σ) : Except Failure Listing × σ :=
  match handle.kind with
  | .searchRoot => (.ok .empty, s)
  | .real => listDirectory fs filter volumes handle none handle.path s
  | .placeholder =>
    match fs.resolve s handle.path with
    | (.error e, s') => (.error (.io e), s')
    | (.ok found, s') =>
      if found.isUnresolved then (.error (.unresolvedPlaceholder handle.path), s')
      else
        let dir := { found with label := found.label.or handle.label }
        listDirectory fs filter volumes handle (some dir) dir.path s'

/-- Whether `handle` would list a child, without listing it into the tree. Placeholders are not
resolved for this; the remote root always has its search roots. -/
def wouldListAny (fs : FileSystem σ) (filter : NameFilter) (volumes : VolumeMap)
    (handle : Handle) (s : σ) : Except Failure Bool × σ :=
  match handle.kind with
  | .searchRoot => (.ok false, s)
  | .placeholder => (.ok false, s)
  | .real =>
    if volumes.isRemoteTop handle.path && !volumes.searchRoots.isEmpty then (.ok true, s)
    else
      match fs.holdsDirectory s handle.path filter with
      | (.ok found, s') => (.ok found, s')
      | (.error e, s') => (.error (.io e), s')

end LazyTree
