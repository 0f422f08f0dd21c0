import LazyTree.NameFilter
import LazyTree.VolumeMap

/-!
Settings in layers. A layer leaves any setting unset; a later layer wins where it sets one; what no
layer sets has a default.
-/
namespace LazyTree

structure FilterSettings where
  showHidden : Option Bool
  ignore : Option (List String)
deriving DecidableEq, Repr, Inhabited

structure VolumeSettings where
  remoteRoot : Option String
  remoteHidden : Option (List String)
  myDrive : Option String
  myDriveLabel : Option String
  searchRoots : Option (List SearchRoot)
  nestedParents : Option (List String)
deriving DecidableEq, Repr, Inhabited

structure WatchSettings where
  enabled : Option Bool
  debounceMs : Option Nat
  floodThreshold : Option Nat
deriving DecidableEq, Repr, Inhabited

structure Settings where
  filter : FilterSettings
  volumes : VolumeSettings
  watcher : WatchSettings
deriving DecidableEq, Repr, Inhabited

def FilterSettings.unset : FilterSettings := ⟨none, none⟩

def VolumeSettings.unset : VolumeSettings := ⟨none, none, none, none, none, none⟩

def WatchSettings.unset : WatchSettings := ⟨none, none, none⟩

def FilterSettings.overlay (lower upper : FilterSettings) : FilterSettings where
  showHidden := upper.showHidden.or lower.showHidden
  ignore := upper.ignore.or lower.ignore

def VolumeSettings.overlay (lower upper : VolumeSettings) : VolumeSettings where
  remoteRoot := upper.remoteRoot.or lower.remoteRoot
  remoteHidden := upper.remoteHidden.or lower.remoteHidden
  myDrive := upper.myDrive.or lower.myDrive
  myDriveLabel := upper.myDriveLabel.or lower.myDriveLabel
  searchRoots := upper.searchRoots.or lower.searchRoots
  nestedParents := upper.nestedParents.or lower.nestedParents

def WatchSettings.overlay (lower upper : WatchSettings) : WatchSettings where
  enabled := upper.enabled.or lower.enabled
  debounceMs := upper.debounceMs.or lower.debounceMs
  floodThreshold := upper.floodThreshold.or lower.floodThreshold

namespace Settings

def unset : Settings := ⟨.unset, .unset, .unset⟩

def overlay (lower upper : Settings) : Settings where
  filter := lower.filter.overlay upper.filter
  volumes := lower.volumes.overlay upper.volumes
  watcher := lower.watcher.overlay upper.watcher

/-- All layers in one, the lowest first; layers that are missing count for nothing. -/
def layered (layers : List (Option Settings)) : Settings :=
  layers.foldl (fun settings layer => settings.overlay (layer.getD unset)) unset

def showHidden (settings : Settings) : Bool := settings.filter.showHidden.getD false

def ignoreNames (settings : Settings) : List String :=
  settings.filter.ignore.getD [".git", "node_modules", "__pycache__", "target"]

def remoteRoot (settings : Settings) : String := settings.volumes.remoteRoot.getD "/drive"

def remoteHidden (settings : Settings) : List String := settings.volumes.remoteHidden.getD ["other"]

def myDrive (settings : Settings) : String := settings.volumes.myDrive.getD "root"

def myDriveLabel (settings : Settings) : String := settings.volumes.myDriveLabel.getD "My Drive"

def searchRoots (settings : Settings) : List SearchRoot :=
  settings.volumes.searchRoots.getD [⟨"/drive_recent", "Recent"⟩, ⟨"/drive_offline", "Offline"⟩]

def nestedParents (settings : Settings) : List String :=
  settings.volumes.nestedParents.getD ["/removable", "/archive"]

def watcherEnabled (settings : Settings) : Bool := settings.watcher.enabled.getD true

def debounceMs (settings : Settings) : Nat := settings.watcher.debounceMs.getD 300

def floodThreshold (settings : Settings) : Nat := settings.watcher.floodThreshold.getD 100

def nameFilter (settings : Settings) : NameFilter := ⟨settings.showHidden, settings.ignoreNames⟩

/-- The volumes these settings describe, their paths normalized. -/
def volumeMap (settings : Settings) : VolumeMap where
  remoteRoot := Path.normalize settings.remoteRoot
  remoteHidden := settings.remoteHidden
  myDrive := settings.myDrive
  myDriveLabel := settings.myDriveLabel
  searchRoots :=
    settings.searchRoots.map (fun root => { root with path := Path.normalize root.path })
  nestedParents := settings.nestedParents.map Path.normalize

def showAll : Settings := { unset with filter := ⟨some true, some []⟩ }

end Settings

end LazyTree
