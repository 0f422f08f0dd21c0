import LazyTree.Failure
import LazyTree.Host.Path

/-!
The directories, files and symbolic links of a host, and the look-up of paths among them. Links are
followed where they stand, so `..` leads to the directory above the one a link points to.
-/
namespace LazyTree.Host

/-- Names from the top of the disk downwards. -/
abbrev Location := List String

inductive DiskItem where
  | directory
  | file (text : String)
  | link (target : String)
deriving DecidableEq, Repr, Inhabited

def DiskItem.isLink : DiskItem → Bool
  | link _ => true
  | _ => false

structure Disk where
  /-- Everything but the top directory. -/
  items : List (Location × DiskItem)
  /-- Where relative paths start. -/
  workingDir : Location
deriving Repr, Inhabited

inductive Step where
  | stay
  | up
  | enter (name : String)
deriving DecidableEq, Repr, Inhabited

def Step.ofPiece (piece : List Char) : Step :=
  if piece = ['.'] then .stay
  else if piece = ['.', '.'] then .up
  else .enter (String.ofList piece)

/-- The steps of a path. A separator at the end asks for a directory, as a final `.` does. -/
def steps (path : String) : List Step :=
  ((Path.pieces path.toList).filter (fun p => p ≠ [])).map Step.ofPiece ++
    (if path.toList.getLast? = some '/' then [.stay] else [])

def maxLinks : Nat := 40

def maxNameBytes : Nat := 255

def maxPathBytes : Nat := 4095

namespace Disk

def item? (disk : Disk) (location : Location) : Option DiskItem :=
  if location = [] then some .directory else disk.items.lookup location

def isDirectory (disk : Disk) (location : Location) : Bool :=
  disk.item? location = some .directory

def put (disk : Disk) (location : Location) (item : DiskItem) : Disk :=
  { disk with
    items := (location, item) :: disk.items.filter (fun row => row.1 ≠ location) }

def itemsIn (disk : Disk) (location : Location) : List (String × DiskItem) :=
  disk.items.filterMap (fun row =>
    match row.1.getLast? with
    | some name => if row.1.dropLast = location then some (name, row.2) else none
    | none => none)

/-- Where steps lead from a directory. `links` is the number of links that may still be followed. -/
def walk (disk : Disk) (links : Nat) (here : Location) (todo : List Step) :
    Except OsFault Location :=
  match todo with
  | [] => .ok here
  | step :: rest =>
    if disk.isDirectory here then
      match step with
      | .stay => walk disk links here rest
      | .up => walk disk links here.dropLast rest
      | .enter name =>
        if maxNameBytes < name.utf8ByteSize then .error .nameTooLong
        else
          match disk.item? (here ++ [name]) with
          | none => .error .noEntry
          | some (.link target) =>
            match links with
            | 0 => .error .tooManyLinks
            | links' + 1 =>
              walk disk links' (if isAbsolute target then [] else here) (steps target ++ rest)
          | some _ => walk disk links (here ++ [name]) rest
    else .error .notDirectory
termination_by (links, todo.length)

def origin (disk : Disk) (path : String) : Location :=
  if isAbsolute path then [] else disk.workingDir

/-- The place a path names, all links followed. -/
def locate (disk : Disk) (path : String) : Except IoError Location :=
  if path.toList.contains '\x00' then
    .error (.refused .invalidInput "file name contained an unexpected NUL byte")
  else if path = "" then .error (.os .noEntry)
  else if maxPathBytes < path.utf8ByteSize then .error (.os .nameTooLong)
  else
    match disk.walk maxLinks (disk.origin path) (steps path) with
    | .ok location => .ok location
    | .error fault => .error (.os fault)

def readDirectory (disk : Disk) (path : String) : Except IoError (List (String × DiskItem)) :=
  match disk.locate path with
  | .error e => .error e
  | .ok location =>
    if disk.isDirectory location then .ok (disk.itemsIn location)
    else .error (.os .notDirectory)

def readFile? (disk : Disk) (path : String) : Option String :=
  match disk.locate path with
  | .error _ => none
  | .ok location =>
    match disk.item? location with
    | some (.file text) => some text
    | _ => none

/-- The absolute path of what a path names, free of links and of `..`. It is found name by name, so
the limit on the bytes of a path holds for the answer and not for the path given. -/
def canonical? (disk : Disk) (path : String) : Option String :=
  if path = "" || path.toList.contains '\x00' then none
  else
    match disk.walk maxLinks (disk.origin path) (steps path) with
    | .ok location =>
      let whole := Path.render location
      if maxPathBytes < whole.utf8ByteSize then none else some whole
    | .error _ => none

end Disk

end LazyTree.Host
