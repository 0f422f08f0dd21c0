import LazyTree.Host.Watcher
import LazyTree.Proofs.Lookup
import LazyTree.Proofs.Mounted

/-!
From changed places on the host to directories of a tree. What a tree shows has come down from its
root by names that its filter admits, and a watch ignores only names that the filter does not admit.
So a change that the listing of a shown directory can tell of is passed on, alone or with the root.
-/
namespace LazyTree
variable {path : String} {paths : List String}

theorem mem_insertPath {other : String} :
    path ∈ insertPath other paths ↔ path = other ∨ path ∈ paths := by
  fun_induction insertPath other paths with
  | case1 => simp
  | case2 => simp
  | case3 p rest heq =>
    obtain rfl := Std.LawfulEqOrd.eq_of_compare heq
    simp
  | case4 p rest _ ih => simp [ih, or_left_comm]

theorem mem_ascending : path ∈ ascending paths ↔ path ∈ paths := by
  induction paths with
  | nil => rfl
  | cons p rest ih => simp [ascending, mem_insertPath, ← ih]

namespace Host
variable {mount : Mount} {watcher : Watcher} {names batch : List String}

theorem hasNamedPart_of_none (h : ∀ name ∈ Path.segments path, name ∉ names) :
    hasNamedPart path names = false := by
  rw [hasNamedPart, List.any_eq_false]
  intro component hmem
  cases component with
  | name text => simpa using h text (mem_segments_of_name hmem)
  | _ => simp

namespace Watcher

theorem segments_relative {below : List Component} (h : below? watcher.root path = some below) :
    Path.segments (watcher.relative path) = below.flatMap fun c => Path.segments c.text := by
  rw [relative, h]
  dsimp only
  rw [Path.segments_intercalate, List.flatMap_map]

theorem forward?_of_kept (hpath : path ∈ batch)
    (hkept : hasNamedPart (watcher.relative path) watcher.ignore = false) :
    ∃ forwarded, watcher.forward? batch = some forwarded ∧
      (path ∈ forwarded ∨ forwarded = [watcher.root]) := by
  have hmem : path ∈ batch.filter fun path =>
      !hasNamedPart (watcher.relative path) watcher.ignore :=
    List.mem_filter.mpr ⟨hpath, by rw [hkept]; rfl⟩
  unfold forward?
  split
  · rename_i hnone
    rw [hnone] at hmem
    cases hmem
  · refine ⟨_, rfl, ?_⟩
    unfold limitBatch
    split
    · exact .inr rfl
    · exact .inl hmem

end Watcher

namespace Mount

theorem touched_root (mount : Mount) {top : String} (htop : Path.Normal top) :
    mount.touched top [mount.onHost top] = .root := by
  simp [touched, mount.fromHost?_onHost htop]

theorem touched_of_mem {top dir : String} (hpath : path ∈ paths)
    (hdir : (mount.fromHost? path).bind Path.above? = some dir) :
    mount.touched top paths = .root ∨
      ∃ dirs, mount.touched top paths = .dirs dirs ∧ dir ∈ dirs := by
  obtain ⟨found, hfound, habove⟩ := Option.bind_eq_some_iff.mp hdir
  unfold touched
  dsimp only
  split
  · exact .inl rfl
  · refine .inr ⟨_, rfl, mem_ascending.mpr (List.mem_map.mpr ⟨found, ?_, ?_⟩)⟩
    · exact List.mem_filterMap.mpr ⟨path, hpath, hfound⟩
    · rw [listingOf, habove, Option.getD_some]

/-- The names of a path below the root, where a shown directory lies right above it: those that
lead down to the directory, and its own. -/
theorem names_below {top dir : String} {rest : List Component} {last : Component}
    (htop : Path.Normal top) (hbelow : below? (mount.onHost top) path = some (rest ++ [last]))
    (hdir : (mount.fromHost? path).bind Path.above? = some dir)
    (hnames : Path.segments dir = Path.segments top ++ names) :
    ((rest ++ [last]).flatMap fun c => Path.segments c.text) = names ++ [last.text] := by
  obtain ⟨found, hfound, hnormal, hsegments⟩ := mount.fromHost?_of_below htop hbelow
  rw [hfound, Option.bind_some] at hdir
  obtain ⟨name, hname⟩ := hnormal.above?_eq_some hdir
  rw [hname, hnames, List.append_assoc] at hsegments
  have hsplit := (List.append_cancel_left hsegments).symm
  have hlast : (Path.segments path).getLast? = some name := by
    rw [← flatMap_segments_components, below?_eq_some_iff.mp hbelow, List.flatMap_append, hsplit]
    simp
  have hcomponent := getLast?_components hlast
  rw [below?_eq_some_iff.mp hbelow] at hcomponent
  obtain rfl : last = .ofName name := by simpa using hcomponent
  rw [hsplit, Component.text_ofName]

theorem passes (mount : Mount) {filter : NameFilter} {top dir : String} {rest : List Component}
    {last : Component} (htop : Path.Normal top) (hroot : watcher.root = mount.onHost top)
    (hignore : watcher.ignore = filter.ignore)
    (hbelow : below? watcher.root path = some (rest ++ [last]))
    (hdir : (mount.fromHost? path).bind Path.above? = some dir)
    (hnames : Path.segments dir = Path.segments top ++ names)
    (hshown : ∀ name ∈ names, filter.admits name = true)
    (hlast : filter.admits last.text = true) :
    hasNamedPart (watcher.relative path) watcher.ignore = false := by
  refine hasNamedPart_of_none ?_
  rw [Watcher.segments_relative hbelow, names_below htop (hroot ▸ hbelow) hdir hnames, hignore]
  have hadmitted : ∀ name ∈ names ++ [last.text], filter.admits name = true := by
    simpa [or_imp, forall_and] using And.intro hshown hlast
  intro name hmem
  simpa using (Bool.and_eq_true_iff.mp (hadmitted name hmem)).2

end Mount

end Host

namespace Session
open Host
variable {σ : Type}

/-- No change that a shown listing could tell of is lost. As long as the filter is the one that the
tree was made with, a reported path right below a directory of the tree, by a name that the filter
admits, is passed on, alone or with the root; and what is passed on touches the directory or the
root. -/
theorem run_reports_changes (mount : Mount) (fs : FileSystem σ) (hserves : mount.Serves fs)
    (settings : Settings) (world : σ) (actions : List (Action σ))
    (hkept : ∀ filter, .operate (.useFilter filter) ∉ actions) :
    let x := (start settings.nameFilter settings.volumeMap world).run fs actions
    ∀ top, x.tree.rootPath? = some top →
    ∀ watcher : Watcher, watcher.root = mount.onHost top → watcher.ignore = settings.ignoreNames →
    ∀ batch, ∀ path ∈ batch, ∀ rest last,
      below? watcher.root path = some (rest ++ [last]) → x.tree.filter.admits last.text = true →
    ∀ id node, x.tree.node? id = some node → node.handle.kind ≠ .searchRoot →
      (mount.fromHost? path).bind Path.above? = some node.path →
    ∃ forwarded, watcher.forward? batch = some forwarded ∧
      (path ∈ forwarded ∨ watcher.root ∈ forwarded) ∧
      (mount.touched top forwarded = .root ∨
        ∃ dirs, mount.touched top forwarded = .dirs dirs ∧ node.path ∈ dirs) := by
  intro x top htop watcher hroot hignore batch path hpath rest last hbelow hadmits id node hlive
    hkind hdir
  let scope : Scope := ⟨settings.volumeMap, fun filter => filter = settings.nameFilter, Path.Normal⟩
  have hfs := hserves.listsBelow scope.Filter
  have hactions : ∀ action ∈ actions, action.Within scope := fun action hmem =>
    action.within_of (fun path _ _ => settings.normalized.rootOf (Path.normal_normalize path))
      fun filter heq => absurd (heq ▸ hmem) (hkept filter)
  have hfilter : scope.Filter settings.nameFilter := rfl
  have hkeeping := (keeping_descending hfilter _ world).run (TreeView.keeps_descending hfs) hactions
  have hplain : ¬ settings.volumeMap.Shortcut node.handle := fun hs => hkind hs.kind
  obtain ⟨hnormal, names, hnames, hsegments⟩ := hkeeping.tree.names hkeeping.wellFormed
    (fun _ hbound => hbound) (fun _ hname => hname.1.1) htop hlive hplain
  have hsame : x.tree.filter = settings.nameFilter := hkeeping.within.lister.2
  have hshown : ∀ name ∈ names, settings.nameFilter.admits name = true := by
    intro name hmem
    obtain ⟨_, filter, rfl, hadmitted⟩ := hnames name hmem
    exact hadmitted
  have hpasses : hasNamedPart (watcher.relative path) watcher.ignore = false :=
    mount.passes hnormal hroot hignore hbelow hdir hsegments hshown (hsame ▸ hadmits)
  obtain ⟨forwarded, hforward, hcase⟩ := Watcher.forward?_of_kept hpath hpasses
  refine ⟨forwarded, hforward, ?_⟩
  rcases hcase with hmem | rfl
  · exact ⟨.inl hmem, mount.touched_of_mem hmem hdir⟩
  · exact ⟨.inr List.mem_cons_self, .inl (hroot ▸ mount.touched_root hnormal)⟩

/-- A name in a directory that is shown and not expanded is passed on, with others. -/
theorem nested_reports_change :
    let x := (start Settings.unset.nameFilter Settings.unset.volumeMap ()).run .nested
      [.operate (.select "/a" 1)]
    let watcher : Watcher := ⟨"/srv/a", [], Settings.unset.ignoreNames, 100⟩
    x.tree.pathOf? 2 = some "/a/b" ∧
      ∃ forwarded, watcher.forward? ["/srv/a/target", "/srv/a/b/new"] = some forwarded ∧
        ("/srv/a/b/new" ∈ forwarded ∨ watcher.root ∈ forwarded) ∧
        (Mount.touched ⟨"/srv"⟩ "/a" forwarded = .root ∨
          ∃ dirs, Mount.touched ⟨"/srv"⟩ "/a" forwarded = .dirs dirs ∧ "/a/b" ∈ dirs) :=
  ⟨by decide +kernel, run_reports_changes ⟨"/srv"⟩ .nested Mount.serves_nested Settings.unset ()
    [.operate (.select "/a" 1)] (by simp) "/a" (by decide +kernel)
    ⟨"/srv/a", [], Settings.unset.ignoreNames, 100⟩ (by decide +kernel) rfl
    ["/srv/a/target", "/srv/a/b/new"] "/srv/a/b/new" (by simp) [.name "b"] (.name "new")
    (by decide +kernel) (by decide +kernel) 2 ⟨"/a/b", .real "/a/b", some 1, [], false, false, 0⟩
    (by decide +kernel) (by decide) (by decide +kernel)⟩

end Session

end LazyTree
