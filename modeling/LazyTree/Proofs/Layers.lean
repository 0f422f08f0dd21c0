import LazyTree.CommandLine.Run

/-!
Settings in layers, one setting at a time. Laying one layer over another is associative, a layer
that sets nothing changes nothing, and a layer laid over itself stays as it is; so of many layers
the highest that sets a setting decides it, and what else the layers set has no part in that.
-/
namespace LazyTree

/-- The settings there are, with the types of their values. -/
inductive Setting : Type → Type where
  | showHidden : Setting Bool
  | ignore : Setting (List String)
  | remoteRoot : Setting String
  | remoteHidden : Setting (List String)
  | myDrive : Setting String
  | myDriveLabel : Setting String
  | searchRoots : Setting (List SearchRoot)
  | nestedParents : Setting (List String)
  | watcherEnabled : Setting Bool
  | debounceMs : Setting Nat
  | floodThreshold : Setting Nat

namespace Settings
variable {α : Type} {a b settings : Settings}

/-- What a layer sets a setting to, if it sets it. -/
def get? (settings : Settings) : Setting α → Option α
  | .showHidden => settings.filter.showHidden
  | .ignore => settings.filter.ignore
  | .remoteRoot => settings.volumes.remoteRoot
  | .remoteHidden => settings.volumes.remoteHidden
  | .myDrive => settings.volumes.myDrive
  | .myDriveLabel => settings.volumes.myDriveLabel
  | .searchRoots => settings.volumes.searchRoots
  | .nestedParents => settings.volumes.nestedParents
  | .watcherEnabled => settings.watcher.enabled
  | .debounceMs => settings.watcher.debounceMs
  | .floodThreshold => settings.watcher.floodThreshold

theorem ext_get? (h : ∀ {α : Type} (setting : Setting α), a.get? setting = b.get? setting) :
    a = b := by
  obtain ⟨⟨_, _⟩, ⟨_, _, _, _, _, _⟩, ⟨_, _, _⟩⟩ := a
  obtain ⟨⟨_, _⟩, ⟨_, _, _, _, _, _⟩, ⟨_, _, _⟩⟩ := b
  simp only [mk.injEq, FilterSettings.mk.injEq, VolumeSettings.mk.injEq, WatchSettings.mk.injEq]
  exact ⟨⟨h .showHidden, h .ignore⟩,
    ⟨h .remoteRoot, h .remoteHidden, h .myDrive, h .myDriveLabel, h .searchRoots, h .nestedParents⟩,
    ⟨h .watcherEnabled, h .debounceMs, h .floodThreshold⟩⟩

@[simp] theorem get?_unset (setting : Setting α) : unset.get? setting = none := by
  cases setting <;> rfl

@[simp] theorem get?_overlay (lower upper : Settings) (setting : Setting α) :
    (lower.overlay upper).get? setting = (upper.get? setting).or (lower.get? setting) := by
  cases setting <;> rfl

theorem overlay_assoc (a b c : Settings) : (a.overlay b).overlay c = a.overlay (b.overlay c) :=
  ext_get? fun setting => by simp only [get?_overlay, Option.or_assoc]

@[simp] theorem unset_overlay (settings : Settings) : unset.overlay settings = settings :=
  ext_get? fun setting => by rw [get?_overlay, get?_unset, Option.or_none]

@[simp] theorem overlay_unset (settings : Settings) : settings.overlay unset = settings :=
  ext_get? fun setting => by rw [get?_overlay, get?_unset, Option.none_or]

@[simp] theorem overlay_self (settings : Settings) : settings.overlay settings = settings :=
  ext_get? fun setting => by rw [get?_overlay, Option.or_self]

theorem foldl_overlay (start : Settings) (layers : List (Option Settings)) :
    layers.foldl (fun settings layer => settings.overlay (layer.getD unset)) start =
      start.overlay (layered layers) := by
  induction layers generalizing start with
  | nil => exact (overlay_unset start).symm
  | cons layer rest ih =>
    rw [layered, List.foldl_cons, List.foldl_cons, ih, ih, unset_overlay, overlay_assoc]

theorem layered_append (layers above : List (Option Settings)) :
    layered (layers ++ above) = (layered layers).overlay (layered above) := by
  rw [layered, List.foldl_append, foldl_overlay, ← layered]

theorem get?_getD (layer : Option Settings) (setting : Setting α) :
    (layer.getD unset).get? setting = layer.bind (·.get? setting) := by
  cases layer with
  | none => exact get?_unset setting
  | some settings => rfl

theorem get?_layered (layers : List (Option Settings)) (setting : Setting α) :
    (layered layers).get? setting = layers.reverse.findSome? (·.bind (·.get? setting)) := by
  induction layers with
  | nil => exact get?_unset setting
  | cons layer rest ih =>
    have hone : layered [layer] = layer.getD unset := unset_overlay _
    rw [← List.singleton_append, layered_append, hone, get?_overlay, ih, get?_getD,
      List.reverse_append, List.findSome?_append, List.reverse_singleton, List.findSome?_singleton]

/-- The sources of settings, the one that counts most first: the command line, the file it names,
the file the environment names, the one in the working directory, and the user's own. -/
def sources (disk : Host.Disk) (places : Places) (explicit : Option String)
    (overrides : Option Settings) : List (Option Settings) :=
  [overrides, explicit.bind (readLayer disk), places.environment.bind (readLayer disk),
    readLayer disk localFile, (places.userDirectory.map userFile).bind (readLayer disk)]

theorem get?_load (disk : Host.Disk) (places : Places) (explicit : Option String)
    (overrides : Option Settings) (setting : Setting α) :
    (load disk places explicit overrides).get? setting =
      (sources disk places explicit overrides).findSome? (·.bind (·.get? setting)) := by
  obtain ⟨environment, userDirectory⟩ := places
  rw [load, get?_layered, layers, candidates, sources]
  -- A place that is not known stands in the one list as a missing source, in the other not at all.
  cases environment <;> cases userDirectory <;> simp [List.findSome?_cons]

theorem nameFilter_eq_everything (hshown : settings.get? .showHidden = some true)
    (hignored : settings.get? .ignore = some []) : settings.nameFilter = .everything := by
  change settings.filter.showHidden = some true at hshown
  change settings.filter.ignore = some [] at hignored
  rw [nameFilter, showHidden, ignoreNames, hshown, hignored]
  rfl

/-- The highest of the sources that set a setting decides it, and it is unset when none does; each
setting is decided by itself. So it has to be with an overlay that is associative, has the empty
layer for its identity, and changes nothing when it is repeated. With the arguments that ask for
everything, everything is shown, whatever is written in files. -/
theorem highest_source_decides :
    (∀ a b c : Settings, (a.overlay b).overlay c = a.overlay (b.overlay c)) ∧
    (∀ a : Settings, unset.overlay a = a ∧ a.overlay unset = a ∧ a.overlay a = a) ∧
    (∀ (α : Type) (setting : Setting α),
      (∀ layers : List (Option Settings), (layered layers).get? setting =
        layers.reverse.findSome? (·.bind (·.get? setting))) ∧
      ∀ disk places explicit overrides, (load disk places explicit overrides).get? setting =
        (sources disk places explicit overrides).findSome? (·.bind (·.get? setting))) ∧
    ∀ disk places config verbose base path json,
      (load disk places config (CommandLine.Invocation.overrides
        ⟨config, verbose, base, .show path json true⟩)).nameFilter = .everything := by
  refine ⟨overlay_assoc, fun a => ⟨unset_overlay a, overlay_unset a, overlay_self a⟩,
    fun α setting => ⟨fun layers => get?_layered layers setting,
      fun disk places explicit overrides => get?_load disk places explicit overrides setting⟩,
    fun disk places config verbose base path json => ?_⟩
  exact nameFilter_eq_everything (get?_load disk places config (some showAll) .showHidden)
    (get?_load disk places config (some showAll) .ignore)

end Settings

end LazyTree
