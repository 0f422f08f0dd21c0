import LazyTree.CommandLine.Help
import LazyTree.Settings.Sources
import LazyTree.TreeView.Drawing
import LazyTree.Host.Mount
import LazyTree.TreeView.Snapshot
import LazyTree.TreeView.Selection

/-!
What the program does with a disk: its output, its exit code, and the line that reports an error.
-/
namespace LazyTree.CommandLine

structure Outcome where
  code : Nat
  output : String
  errorLine : Option String
deriving DecidableEq, Repr, Inhabited

namespace Outcome

def printed (output : String) : Outcome := ⟨0, output, none⟩

def failed (error : Failure) : Outcome := ⟨1, "", some ("Error: " ++ error.detail)⟩

def refused : Outcome := ⟨2, "", none⟩

end Outcome

namespace Invocation

def overrides (invocation : Invocation) : Option Settings :=
  match invocation.command with
  | .show _ _ true => some .showAll
  | _ => none

def target (invocation : Invocation) : String :=
  match invocation.command with
  | .show path _ _ => path
  | .watch path => path

def print (invocation : Invocation) (tree : TreeView) : String :=
  match invocation.command with
  | .show _ true _ => tree.snapshot.json ++ "\n"
  | _ => tree.draw

def printSelection (invocation : Invocation) (config : Settings) (base : String)
    (disk : Host.Disk) : Outcome :=
  let mount : Host.Mount := ⟨base⟩
  let tree := TreeView.unbound config.nameFilter config.volumeMap
  match TreeView.select mount.fileSystem invocation.target tree disk with
  | (some (.ok _), tree, _) => .printed (invocation.print tree)
  | (some (.error e), _, _) => .failed e
  | (none, _, _) => .failed (.notFound (Path.normalize invocation.target))

def run (invocation : Invocation) (places : Settings.Places) (disk : Host.Disk) : Outcome :=
  match disk.canonical? invocation.base with
  | none => .failed (.invalidPath (invocation.base ++ " does not exist"))
  | some base =>
    let config := Settings.load disk places invocation.config invocation.overrides
    invocation.printSelection config base disk

end Invocation

/-- Runs the program up to the first print of the tree. -/
def run (arguments : List String) (places : Settings.Places) (disk : Host.Disk) : Outcome :=
  match read arguments with
  | .run invocation => invocation.run places disk
  | .help topic => .printed (helpText topic)
  | .version => .printed versionText
  | .refused => .refused

end LazyTree.CommandLine
