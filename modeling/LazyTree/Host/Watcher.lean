import LazyTree.Touched
import LazyTree.Host.Mount

/-!
A watch on a host directory, and the way from changed places on the disk to changed directories of a
tree. Links that exist when the watch starts are followed, and a changed place is reported by the
path that led to its directory. A large batch is passed on as one change of the root.
-/
namespace LazyTree.Host

def hasNamedPart (path : String) (names : List String) : Bool :=
  (components path).any (fun component =>
    match component with
    | .name text => names.contains text
    | _ => false)

/-- A batch that is too large becomes a change of the root. -/
def limitBatch (paths : List String) (threshold : Nat) (root : String) : List String :=
  if threshold < paths.length then [root] else paths

/-- The directory whose listing shows a path; the top is shown by its own. -/
def listingOf (path : String) : String := (Path.above? path).getD path

/-- What a batch of host paths touched in a tree with the given root. Paths outside the mount are
passed over. -/
def Mount.touched (mount : Mount) (rootPath : String) (paths : List String) : Touched :=
  let changed := paths.filterMap mount.fromHost?
  if changed.contains rootPath then .root else .ofDirs (changed.map listingOf)

/-- The directories reached from one at a path, each with its path: first the directory itself, then
what lies below it. Links are followed, but not to a directory on the way from the start, and what
cannot be looked up is passed over. `depth` bounds the names on a way. -/
def Disk.directoriesFrom (disk : Disk) :
    Nat → List Location → Location → String → List (Location × String)
  | 0, _, _, _ => []
  | depth + 1, way, place, path =>
    (place, path) :: (disk.itemsIn place).flatMap (fun row =>
      let below := extend path row.1
      match disk.locate below with
      | .ok there =>
        if disk.isDirectory there && !(row.2.isLink && (place :: way).contains there) then
          directoriesFrom disk depth (place :: way) there below
        else []
      | .error _ => [])

structure Watcher where
  root : String
  /-- The places watched, each with the path that led there. Where several paths did, the first row
  counts. -/
  watched : List (Location × String)
  /-- Names below the root about which nothing is reported. -/
  ignore : List String
  floodThreshold : Nat
deriving Repr, Inhabited

namespace Watcher

/-- Only what exists can be watched. A directory reached by several paths is known by the last, and
no path that can be looked up has more names than bytes. -/
def start (disk : Disk) (root : String) (ignore : List String) (floodThreshold : Nat) :
    Except Failure Watcher :=
  match disk.locate root with
  | .ok place =>
    .ok ⟨root, (disk.directoriesFrom maxPathBytes [] place root).reverse, ignore, floodThreshold⟩
  | .error e => .error (.watcher e.message)

/-- The path to a place, whose names are given from the last to the first: on from the nearest
watched place at or above it. -/
def pathTo? (watcher : Watcher) : List String → Option String
  | [] => watcher.watched.lookup []
  | name :: above =>
    match watcher.watched.lookup (name :: above).reverse with
    | some path => some path
    | none => (pathTo? watcher above).map (fun path => extend path name)

/-- The paths that report a place: as a name in its directory, and as a watched place itself. -/
def reports (watcher : Watcher) (location : Location) : List String :=
  (match location.reverse with
    | [] => []
    | name :: above => ((watcher.pathTo? above).map (fun path => extend path name)).toList) ++
    (watcher.watched.lookup location).toList

/-- What is reported for places touched together, each path once. -/
def batch (watcher : Watcher) (touched : List Location) : List String :=
  (touched.flatMap watcher.reports).eraseDups

/-- The path from the root to a path below it; any other path as it is. -/
def relative (watcher : Watcher) (path : String) : String :=
  match below? watcher.root path with
  | some rest => String.intercalate "/" (rest.map Component.text)
  | none => path

/-- The batch that is passed on for a batch of reported paths. Names in the root's own path are not
looked at. -/
def forward? (watcher : Watcher) (reported : List String) : Option (List String) :=
  match reported.filter (fun path => !hasNamedPart (watcher.relative path) watcher.ignore) with
  | [] => none
  | kept => some (limitBatch kept watcher.floodThreshold watcher.root)

end Watcher

end LazyTree.Host
