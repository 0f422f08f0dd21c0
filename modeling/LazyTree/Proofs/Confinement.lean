import LazyTree.Proofs.Mounted
import LazyTree.Proofs.Requests
import LazyTree.Settings

/-!
Which paths of a mount stay inside its base. A path is judged by its text: `..` takes back the name
before it. Names that a disk lists lead further in, so a tree stays inside as long as the tops that
it is bound to lie inside. A top may be above the base, since `..` is a segment like any other.
-/
namespace LazyTree
variable {mount : Host.Mount} {path name : String}

namespace Host

/-- One component more on a path without dots, whose last component comes first. There is nothing
above the top of the disk. -/
def resolveStep (above : List Component) : Component → List Component
  | .root => .root :: above
  | .current => above
  | .name text => .name text :: above
  | .up =>
    match above with
    | .name _ :: rest => rest
    | .root :: _ => above
    | _ => .up :: above

/-- A path without `.`, and without `..` except at its start. -/
def resolveDots (path : List Component) : List Component := (path.foldl resolveStep []).reverse

/-- Whether a virtual path stands for the base or for what lies below it. -/
def Mount.confines (mount : Mount) (path : String) : Bool :=
  match remainder? (resolveDots (components mount.base))
      (resolveDots (components (mount.onHost path))) with
  | some below => !below.contains .up
  | none => false

theorem foldl_resolveStep_names {names : List String} (h : ".." ∉ names)
    (above : List Component) :
    (names.map Component.ofName).foldl resolveStep above =
      (names.map Component.name).reverse ++ above := by
  induction names generalizing above with
  | nil => rfl
  | cons name rest ih =>
    obtain ⟨hname, hrest⟩ := not_or.mp (mt List.mem_cons.mpr h)
    rw [List.map_cons, List.foldl_cons, ih hrest, Component.ofName, if_neg (Ne.symm hname)]
    simp [resolveStep]

theorem resolveDots_append_names {names : List String} (h : ".." ∉ names)
    (path : List Component) :
    resolveDots (path ++ names.map Component.ofName) =
      resolveDots path ++ names.map Component.name := by
  rw [resolveDots, List.foldl_append, foldl_resolveStep_names h, List.reverse_append,
    List.reverse_reverse]
  rfl

namespace Mount

theorem confines_iff :
    mount.confines path = true ↔ ∃ below, .up ∉ below ∧
      resolveDots (components (mount.onHost path)) =
        resolveDots (components mount.base) ++ below := by
  unfold confines
  cases hbelow : remainder? (resolveDots (components mount.base))
      (resolveDots (components (mount.onHost path))) with
  | none =>
    refine iff_of_false Bool.false_ne_true ?_
    rintro ⟨below, _, heq⟩
    rw [remainder?_eq_some_iff.mpr heq] at hbelow
    cases hbelow
  | some below =>
    rw [remainder?_eq_some_iff] at hbelow
    simp [hbelow]

theorem resolveDots_onHost (mount : Mount) (path : String) :
    resolveDots (components (mount.onHost path)) =
      resolveDots (components mount.base ++ (Path.segments path).map Component.ofName) := by
  by_cases hleading : mount.base = "" → leadingComponent (bare path) = []
  · rw [mount.components_onHost_of_leading hleading]
  · -- Text that starts with `.` and is mounted at the empty path.
    obtain ⟨hbase, hleading⟩ := Classical.not_imp.mp hleading
    have hcurrent : leadingComponent (bare path) = [.current] := by
      rw [leadingComponent_eq, isAbsolute_bare, if_neg Bool.false_ne_true] at hleading ⊢
      split at hleading
      · exact if_pos ‹_›
      · exact absurd rfl hleading
    have hchars : (bare path).toList = path.toList.dropWhile fun c => c = '/' :=
      String.toList_ofList
    have hhost : mount.onHost path = bare path := by
      rw [onHost, ← hchars, hbase]
      split
      · rename_i hempty
        exact Eq.symm (by simpa using hempty)
      · exact String.ofList_toList
    rw [hhost, hbase, components_eq (bare path), hcurrent, segments_bare]
    rfl

theorem confines_child (hname : IsItemName name) (h : mount.confines path = true) :
    mount.confines (Path.child path name) = true := by
  obtain ⟨below, hup, heq⟩ := confines_iff.mp h
  rw [resolveDots_onHost] at heq
  refine confines_iff.mpr ⟨below ++ [.name name], by simpa using hup, ?_⟩
  have hplain : ".." ∉ [name] := by simpa using Ne.symm hname.2
  rw [resolveDots_onHost, Path.segments_child path hname.1, List.map_append, ← List.append_assoc,
    resolveDots_append_names hplain, heq, List.append_assoc]
  rfl

theorem confines_of_plain (mount : Mount) (h : ".." ∉ Path.segments path) :
    mount.confines path = true := by
  refine confines_iff.mpr ⟨_, ?_, by rw [resolveDots_onHost, resolveDots_append_names h]⟩
  simp

/-- The root of a volume lies inside where neither the path nor the remote root has `..`. -/
theorem confines_rootOf (mount : Mount) {volumes : VolumeMap}
    (hremote : ".." ∉ Path.segments volumes.remoteRoot) (h : ".." ∉ Path.segments path) :
    mount.confines (volumes.rootOf (Path.normalize path)) = true := by
  have hfirst (count : Nat) :
      ".." ∉ Path.segments (Path.firstSegments (Path.normalize path) count) := by
    rw [(Path.normal_normalize path).segments_firstSegments, Path.segments_normalize]
    exact fun hmem => h (List.mem_of_mem_take hmem)
  unfold VolumeMap.rootOf
  split
  · exact mount.confines_of_plain hremote
  · split
    · exact mount.confines_of_plain (hfirst _)
    · exact mount.confines_of_plain (hfirst _)

theorem confines_of_leads {scope : Scope} {P : String → Prop} (h : scope.Leads P path)
    (htop : ∀ top, scope.Top top → mount.confines top = true)
    (hP : ∀ name, P name → IsItemName name) : mount.confines path = true := by
  induction h with
  | top bound => exact htop _ bound
  | child _ named ih => exact confines_child (hP _ named) ih

end Mount

end Host

namespace Session
variable {σ : Type}

/-- A tree over a mounted directory asks only for what lies inside the base, if the roots of the
volumes of all selected paths do; and they do where `..` is in neither path nor remote root. -/
theorem run_asks_inside (mount : Host.Mount) (fs : FileSystem σ) (hserves : mount.Serves fs)
    (filter : NameFilter) (volumes : VolumeMap) (world : σ) (actions : List (Action σ)) :
    ((∀ path budget, .operate (.select path budget) ∈ actions →
        mount.confines (volumes.rootOf (Path.normalize path)) = true) →
      let x := (start filter volumes (world, [])).runRecorded fs actions
      ∀ request ∈ x.world.2, mount.confines request.path = true) ∧
    ∀ path, ".." ∉ Path.segments volumes.remoteRoot → ".." ∉ Path.segments path →
      mount.confines (volumes.rootOf (Path.normalize path)) = true := by
  refine ⟨fun htops => ?_, fun path hremote h => mount.confines_rootOf hremote h⟩
  intro x request hrequest
  let scope : Scope := ⟨volumes, fun _ => True, fun top => mount.confines top = true⟩
  have hlists := hserves.listsBelow scope.Filter
  have hactions : ∀ action ∈ actions, action.Within scope := fun action hmem =>
    action.within_of (fun path budget heq => htops path budget (heq ▸ hmem)) fun _ _ => trivial
  have hleads := requests_lead hlists (keeping_descending trivial _ (world, [])) (by simp [start])
    hactions request hrequest
  exact Host.Mount.confines_of_leads hleads (fun _ htop => htop) fun _ hname => hname.1

/-- Selecting below the base asks for directories inside it, from the root of the volume on. -/
theorem nested_asks_inside :
    let x := (start .everything Settings.unset.volumeMap ((), [])).runRecorded .nested
      [.operate (.select "/a/b" 2)]
    x.world.2 = [.check "/a/b", .enumerate "/a", .resolve "/a"] ∧
      ∀ request ∈ x.world.2, Host.Mount.confines ⟨"/srv"⟩ request.path = true :=
  ⟨by decide +kernel, (run_asks_inside ⟨"/srv"⟩ .nested Host.Mount.serves_nested .everything
    Settings.unset.volumeMap () [.operate (.select "/a/b" 2)]).1 (by
      intro path budget hmem
      obtain ⟨rfl, rfl⟩ := Operation.select.inj (Action.operate.inj (List.mem_singleton.mp hmem))
      decide +kernel)⟩

/-- A path with `..` in place of its first name is selected above the base. -/
theorem nested_leaves_base :
    let x := (start .everything Settings.unset.volumeMap ((), [])).runRecorded .nested
      [.operate (.select "/../srv" 2)]
    Host.Mount.Serves ⟨"/srv"⟩ .nested ∧ x.tree.selectedPath? = some "/../srv" ∧
      ∃ request ∈ x.world.2, Host.Mount.confines ⟨"/srv"⟩ request.path = false :=
  ⟨Host.Mount.serves_nested, by decide +kernel, .enumerate "/..", by decide +kernel,
    by decide +kernel⟩

end Session

end LazyTree
