import LazyTree.FileSystem
import LazyTree.Host.Disk

/-!
A directory of the host as the filesystem of a tree: the virtual path `/a/b` stands for `base/a/b`.
-/
namespace LazyTree.Host

structure Mount where
  base : String
deriving DecidableEq, Repr, Inhabited

namespace Mount

def onHost (mount : Mount) (path : String) : String :=
  match path.toList.dropWhile (fun c => c = '/') with
  | [] => mount.base
  | rest => extend mount.base (String.ofList rest)

def fromHost? (mount : Mount) (host : String) : Option String :=
  (below? mount.base host).map (fun rest =>
    Path.normalize (String.intercalate "/" (rest.map Component.text)))

/-- The item of a directory listing for a name. A link counts as what the path through it leads to
and is left out where that path leads nowhere. -/
def entryOf? (mount : Mount) (disk : Disk) (dir : String) (row : String × DiskItem) :
    Option Entry :=
  let path := Path.child dir row.1
  match row.2 with
  | .directory => some ⟨path, row.1, true, false⟩
  | .file _ => some ⟨path, row.1, false, false⟩
  | .link _ =>
    match disk.locate (extend (mount.onHost dir) row.1) with
    | .ok place => some ⟨path, row.1, disk.isDirectory place, false⟩
    | .error _ => none

def listing (mount : Mount) (disk : Disk) (dir : String) : Except IoError (List Entry) :=
  match disk.readDirectory (mount.onHost dir) with
  | .ok rows => .ok (rows.filterMap (mount.entryOf? disk dir))
  | .error e => .error e

/-- A placeholder stays one while there is nothing at its path. -/
def resolution (mount : Mount) (disk : Disk) (path : String) : Except IoError Handle :=
  match disk.locate (mount.onHost path) with
  | .ok location =>
    if disk.isDirectory location then .ok (.real path)
    else .error (.described .invalidInput (path ++ " is not a directory"))
  | .error e => if e.kind = .notFound then .ok (.placeholder path) else .error e

/-- The mounted directory of a disk that does not change while it is asked. -/
def fileSystem (mount : Mount) : FileSystem Disk :=
  .ofListing (fun disk dir => (mount.listing disk dir, disk))
    (fun disk path => (mount.resolution disk path, disk))

end Mount

end LazyTree.Host
