import LazyTree.Entry

/-!
How the namespace is split into volumes, and the curated view of the remote volume's root.
-/
namespace LazyTree

/-- A shortcut listed at the remote root. -/
structure SearchRoot where
  path : String
  label : String
deriving DecidableEq, Repr, Inhabited

def SearchRoot.handle (root : SearchRoot) : Handle := .searchRoot root.path root.label

structure VolumeMap where
  remoteRoot : String
  /-- Names below the remote root that are never listed. -/
  remoteHidden : List String
  /-- The name below the remote root that is shown under `myDriveLabel`. -/
  myDrive : String
  myDriveLabel : String
  searchRoots : List SearchRoot
  /-- Directories whose children are volumes of their own. -/
  nestedParents : List String
deriving DecidableEq, Repr, Inhabited

namespace VolumeMap

def isRemoteTop (volumes : VolumeMap) (dir : String) : Bool := dir = volumes.remoteRoot

/-- Whether a path belongs to the remote volume; search roots do, wherever their paths lie. -/
def isRemote (volumes : VolumeMap) (target : String) : Bool :=
  Path.covers volumes.remoteRoot target ||
    volumes.searchRoots.any (fun root => Path.covers root.path target)

/-- The first nested parent strictly above a path. -/
def nestedParentOf? (volumes : VolumeMap) (target : String) : Option String :=
  volumes.nestedParents.find? (fun parent => parent ≠ target && Path.covers parent target)

def rootOf (volumes : VolumeMap) (target : String) : String :=
  if volumes.isRemote target then volumes.remoteRoot
  else
    match volumes.nestedParentOf? target with
    | some parent => Path.firstSegments target ((Path.namedPieces parent).length + 1)
    | none => Path.firstSegments target 1

/-- The listing of the remote root: reserved names dropped, the main drive relabelled, the search
roots added. -/
def arrangeRemote (volumes : VolumeMap) (handles : List Handle) : List Handle :=
  let kept := handles.filter (fun handle => !volumes.remoteHidden.contains handle.name)
  let labelled := kept.map (fun handle =>
    if handle.name = volumes.myDrive then handle.labelled volumes.myDriveLabel else handle)
  labelled ++ volumes.searchRoots.map SearchRoot.handle

end VolumeMap

end LazyTree
