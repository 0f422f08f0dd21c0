import LazyTree.Text.Quoted

/-!
What can go wrong, by cause. `message` is the text shown to a user; `detail` names the cause and its
data on one line.
-/
namespace LazyTree

abbrev NodeId := Nat

inductive IoErrorKind where
  | notFound
  | permissionDenied
  | timedOut
  | invalidInput
  | notADirectory
  | filesystemLoop
  | invalidFilename
  | other
deriving DecidableEq, Repr, Inhabited

def IoErrorKind.word : IoErrorKind → String
  | .notFound => "NotFound"
  | .permissionDenied => "PermissionDenied"
  | .timedOut => "TimedOut"
  | .invalidInput => "InvalidInput"
  | .notADirectory => "NotADirectory"
  | .filesystemLoop => "FilesystemLoop"
  | .invalidFilename => "InvalidFilename"
  | .other => "Other"

inductive OsFault where
  | noEntry
  | notDirectory
  | nameTooLong
  | tooManyLinks
deriving DecidableEq, Repr, Inhabited

namespace OsFault

def code : OsFault → Nat
  | noEntry => 2
  | notDirectory => 20
  | nameTooLong => 36
  | tooManyLinks => 40

def kind : OsFault → IoErrorKind
  | noEntry => .notFound
  | notDirectory => .notADirectory
  | nameTooLong => .invalidFilename
  | tooManyLinks => .filesystemLoop

def text : OsFault → String
  | noEntry => "No such file or directory"
  | notDirectory => "Not a directory"
  | nameTooLong => "File name too long"
  | tooManyLinks => "Too many levels of symbolic links"

end OsFault

/-- A failed filesystem request: described by the filesystem, refused before it was made, or
passed on from the operating system. -/
inductive IoError where
  | described (kind : IoErrorKind) (text : String)
  | refused (kind : IoErrorKind) (text : String)
  | os (fault : OsFault)
deriving DecidableEq, Repr, Inhabited

namespace IoError

def kind : IoError → IoErrorKind
  | described k _ => k
  | refused k _ => k
  | os fault => fault.kind

def message : IoError → String
  | described _ text => text
  | refused _ text => text
  | os fault => fault.text ++ " (os error " ++ toString fault.code ++ ")"

def detail : IoError → String
  | described k text =>
    "Custom \x7b kind: " ++ k.word ++ ", error: " ++ Text.quoted text ++ " \x7d"
  | refused k text =>
    "Error \x7b kind: " ++ k.word ++ ", message: " ++ Text.quoted text ++ " \x7d"
  | os fault =>
    "Os \x7b code: " ++ toString fault.code ++ ", kind: " ++ fault.kind.word ++
      ", message: " ++ Text.quoted fault.text ++ " \x7d"

end IoError

/-- Failures of tree operations. None is fatal: the caller chooses the fallback. -/
inductive Failure where
  | io (cause : IoError)
  | unresolvedPlaceholder (path : String)
  | notFound (path : String)
  | detached (node : NodeId)
  | invalidPath (reason : String)
  | watcher (reason : String)
  | json (reason : String)
deriving DecidableEq, Repr, Inhabited

namespace Failure

def message : Failure → String
  | io cause => "I/O error: " ++ cause.message
  | unresolvedPlaceholder path => "Placeholder never resolved: " ++ path
  | notFound path => "Not found: " ++ path
  | detached node => "Node #" ++ toString node ++ " is no longer attached to the tree"
  | invalidPath reason => "Invalid path: " ++ reason
  | watcher reason => "Watcher error: " ++ reason
  | json reason => "JSON error: " ++ reason

def word : Failure → String
  | io _ => "Io"
  | unresolvedPlaceholder _ => "UnresolvedPlaceholder"
  | notFound _ => "NotFound"
  | detached _ => "Detached"
  | invalidPath _ => "InvalidPath"
  | watcher _ => "Watcher"
  | json _ => "Json"

def detail (error : Failure) : String :=
  let data :=
    match error with
    | io cause => cause.detail
    | unresolvedPlaceholder path => Text.quoted path
    | notFound path => Text.quoted path
    | detached node => "NodeId(" ++ toString node ++ ")"
    | invalidPath reason => Text.quoted reason
    | watcher reason => Text.quoted reason
    | json reason => Text.quoted reason
  error.word ++ "(" ++ data ++ ")"

end Failure

end LazyTree
