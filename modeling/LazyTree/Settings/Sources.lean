import LazyTree.Settings.Decode
import LazyTree.Host.Disk

/-!
The settings in force: those of the files that are found, the nearest last, and those of the command
line above them all.
-/
namespace LazyTree.Settings

/-- Where configuration files are looked for, besides the working directory. -/
structure Places where
  /-- A file named by the environment. -/
  environment : Option String
  /-- The user's directory for configurations. -/
  userDirectory : Option String
deriving Repr, Inhabited

/-- The places that environment variables name: the configuration file, the directory for
configurations, which counts only as an absolute path, and the home directory. -/
def Places.ofEnvironment (file configHome home : Option String) : Places where
  environment := file
  userDirectory :=
    (configHome.filter Host.isAbsolute).or (home.map (fun dir => Host.extend dir ".config"))

def localFile : String := ".dtree.toml"

def userFile (directory : String) : String :=
  Host.extend (Host.extend directory "dtree") "config.toml"

/-- The files looked for, the one that counts least first. -/
def candidates (places : Places) : List String :=
  (places.userDirectory.map userFile).toList ++ [localFile] ++ places.environment.toList

/-- The layer in a file; a file that cannot be read or is malformed counts as missing. -/
def readLayer (disk : Host.Disk) (path : String) : Option Settings :=
  (disk.readFile? path).bind ofToml?

def layers (disk : Host.Disk) (places : Places) (explicit : Option String)
    (overrides : Option Settings) : List (Option Settings) :=
  (candidates places).map (readLayer disk) ++ [explicit.bind (readLayer disk), overrides]

def load (disk : Host.Disk) (places : Places) (explicit : Option String)
    (overrides : Option Settings) : Settings :=
  Settings.layered (layers disk places explicit overrides)

end LazyTree.Settings
