import LazyTree.Host.Disk

/-!
Changes of a disk. Each comes with the places it created, rewrote or removed; a change that cannot
be made changes nothing.
-/
namespace LazyTree.Host

inductive DiskChange where
  /-- A directory, with the directories above it. -/
  | makeDirectory (path : String)
  /-- A file, new or rewritten; written through a link. -/
  | writeFile (path text : String)
  | makeLink (path target : String)
  /-- Removes a file, a link, or a directory with everything in it. -/
  | remove (path : String)
deriving Repr

structure Changed where
  disk : Disk
  touched : List Location

namespace Disk

def unchanged (disk : Disk) : Changed := ⟨disk, []⟩

/-- Goes down from a directory and makes what is missing. The place reached is `none` where
something else than a directory is in the way. -/
def makeWay (disk : Disk) (here : Location) : List Step → Option Location × Changed
  | [] => (some here, disk.unchanged)
  | .stay :: rest => makeWay disk here rest
  | .up :: rest => makeWay disk here.dropLast rest
  | .enter name :: rest =>
    let there := here ++ [name]
    match disk.item? there with
    | none =>
      let (reached, changed) := makeWay (disk.put there .directory) there rest
      (reached, { changed with touched := there :: changed.touched })
    | some .directory => makeWay disk there rest
    | some (.file _) => (none, disk.unchanged)
    | some (.link _) =>
      match disk.walk maxLinks here [.enter name] with
      | .ok place =>
        if disk.isDirectory place then makeWay disk place rest else (none, disk.unchanged)
      | .error _ => (none, disk.unchanged)

/-- The way to the directory of a path, and the name in it. -/
def splitLast (todo : List Step) : Option (List Step × String) :=
  match todo.getLast? with
  | some (.enter name) => some (todo.dropLast, name)
  | _ => none

/-- Writes a file, following at most `links` links at its end. -/
def writeAt (disk : Disk) (text : String) : Nat → Location → List Step → Changed
  | 0, _, _ => disk.unchanged
  | links + 1, here, todo =>
    match splitLast todo with
    | none => disk.unchanged
    | some (way, name) =>
      match disk.walk maxLinks here way with
      | .error _ => disk.unchanged
      | .ok dir =>
        let place := dir ++ [name]
        match disk.item? place with
        | some .directory => disk.unchanged
        | some (.link target) =>
          writeAt disk text links (if isAbsolute target then [] else dir) (steps target)
        | _ => ⟨disk.put place (.file text), [place]⟩

def removeAt (disk : Disk) (place : Location) : Changed :=
  let gone := disk.items.filter (fun row => place.isPrefixOf row.1)
  ⟨{ disk with items := disk.items.filter (fun row => !place.isPrefixOf row.1) },
    gone.map Prod.fst⟩

def emptyAt (disk : Disk) (place : Location) : Changed :=
  let isBelow (location : Location) : Bool := place.isPrefixOf location && location ≠ place
  let gone := disk.items.filter (fun row => isBelow row.1)
  ⟨{ disk with items := disk.items.filter (fun row => !isBelow row.1) },
    place :: gone.map Prod.fst⟩

/-- Where the last name of a path stands, a link there not followed. A separator after the name asks
for a directory. -/
def namedPlace? (disk : Disk) (path : String) : Option Location :=
  let todo := steps path
  let named := (todo.reverse.dropWhile (fun step => step = .stay)).reverse
  match splitLast named with
  | none => none
  | some (way, name) =>
    match disk.walk maxLinks (disk.origin path) way with
    | .error _ => none
    | .ok dir =>
      let place := dir ++ [name]
      if named = todo || disk.isDirectory place then some place else none

/-- A directory that is reached and not named, by `..` or through a link, is only emptied. -/
def removePath (disk : Disk) (path : String) : Changed :=
  match disk.namedPlace? path with
  | some place => disk.removeAt place
  | none =>
    match disk.walk maxLinks (disk.origin path) (steps path) with
    | .ok place => disk.emptyAt place
    | .error _ => disk.unchanged

def withParents (disk : Disk) (path : String)
    (act : Disk → Location → String → Changed) : Changed :=
  match splitLast (steps path) with
  | none => disk.unchanged
  | some (way, name) =>
    match disk.makeWay (disk.origin path) way with
    | (none, changed) => changed
    | (some dir, changed) =>
      let after := act changed.disk dir name
      ⟨after.disk, changed.touched ++ after.touched⟩

def apply (disk : Disk) : DiskChange → Changed
  | .makeDirectory path => (disk.makeWay (disk.origin path) (steps path)).2
  | .writeFile path text =>
    disk.withParents path (fun disk dir name => disk.writeAt text maxLinks dir [.enter name])
  | .makeLink path target =>
    disk.withParents path (fun disk dir name =>
      let place := dir ++ [name]
      match disk.item? place with
      | some _ => disk.unchanged
      | none => ⟨disk.put place (.link target), [place]⟩)
  | .remove path => disk.removePath path

def applyAll (disk : Disk) : List DiskChange → Changed
  | [] => disk.unchanged
  | change :: changes =>
    let first := disk.apply change
    let rest := applyAll first.disk changes
    ⟨rest.disk, first.touched ++ rest.touched⟩

end Disk

end LazyTree.Host
