import LazyTree.Proofs.Batches

/-!
What a batch of host paths touches. A path at or below the base of a mount touches the directory
that lists it, one outside touches nothing, and one at the root of the tree stands for everything.
Only which paths there are counts, not how they are ordered, repeated or cut into batches.
-/
namespace LazyTree
variable {a b paths : List String} {path dir : String}

theorem eq_of_ascending (ha : a.Pairwise (compare · · = .lt)) (hb : b.Pairwise (compare · · = .lt))
    (h : ∀ path, path ∈ a ↔ path ∈ b) : a = b := by
  have hnodup {paths : List String} (hpaths : paths.Pairwise (compare · · = .lt)) : paths.Nodup :=
    hpaths.imp fun hlt heq => by simp [heq] at hlt
  have hperm : a.Perm b := (List.perm_ext_iff_of_nodup (hnodup ha) (hnodup hb)).mpr h
  refine hperm.eq_of_pairwise (fun p q _ _ hlt hgt => ?_) ha hb
  exact absurd hgt (Std.OrientedCmp.not_lt_of_lt hlt)

namespace Host
variable {mount : Mount} {rootPath found : String} {names dirs : List String}

theorem listingOf_eq (h : Path.Normal path) :
    listingOf path = Path.render (Path.segments path).dropLast := by
  by_cases htop : path = "/"
  · subst htop
    rfl
  · obtain ⟨dir, name, hdir, hname, rfl⟩ := h.exists_child htop
    rw [listingOf, hdir.above?_child hname, Path.segments_child dir hname, List.dropLast_concat,
      hdir.render_segments, Option.getD_some]

namespace Mount

/-- The host path lies at these names below the base. -/
def Holds (mount : Mount) (host : String) (names : List String) : Prop :=
  ∃ below, components host = components mount.base ++ below ∧
    names = below.flatMap fun c => Path.segments c.text

theorem Holds.listingOf_eq (h : mount.Holds path names) :
    listingOf (Path.render names) = Path.render names.dropLast := by
  have hnames : ∀ name ∈ names, Path.IsName name := by
    obtain ⟨below, _, rfl⟩ := h
    intro name hmem
    obtain ⟨_, _, hname⟩ := List.mem_flatMap.mp hmem
    exact Path.isName_of_mem_segments hname
  rw [Host.listingOf_eq (Path.normal_render hnames), Path.segments_render hnames]

theorem fromHost?_eq_some_iff :
    mount.fromHost? path = some found ↔
      ∃ names, mount.Holds path names ∧ found = Path.render names := by
  have hnormal (below : List Component) :
      Path.normalize (String.intercalate "/" (below.map Component.text)) =
        Path.render (below.flatMap fun c => Path.segments c.text) := by
    rw [Path.normalize, Path.segments_intercalate, List.flatMap_map]
  rw [fromHost?, Option.map_eq_some_iff]
  constructor
  · rintro ⟨below, hbelow, heq⟩
    exact ⟨_, ⟨below, below?_eq_some_iff.mp hbelow, rfl⟩, by rw [← heq, hnormal]⟩
  · rintro ⟨names, ⟨below, hbelow, hnames⟩, heq⟩
    exact ⟨below, below?_eq_some_iff.mpr hbelow, by rw [heq, hnames, hnormal]⟩

theorem touched_eq_root_iff :
    mount.touched rootPath paths = .root ↔
      ∃ path ∈ paths, ∃ names, mount.Holds path names ∧ rootPath = Path.render names := by
  have hcontains : (paths.filterMap mount.fromHost?).contains rootPath = true ↔
      ∃ path ∈ paths, ∃ names, mount.Holds path names ∧ rootPath = Path.render names := by
    simp [fromHost?_eq_some_iff]
  rw [← hcontains]
  unfold touched
  dsimp only
  split
  · exact iff_of_true rfl ‹_›
  · exact iff_of_false (by simp [Touched.ofDirs]) ‹_›

theorem mem_listings_iff :
    dir ∈ ascending ((paths.filterMap mount.fromHost?).map listingOf) ↔
      ∃ path ∈ paths, ∃ names, mount.Holds path names ∧ dir = Path.render names.dropLast := by
  rw [mem_ascending, List.mem_map]
  constructor
  · rintro ⟨found, hmem, hdir⟩
    obtain ⟨path, hpath, hfound⟩ := List.mem_filterMap.mp hmem
    obtain ⟨names, hholds, rfl⟩ := fromHost?_eq_some_iff.mp hfound
    exact ⟨path, hpath, names, hholds, by rw [← hdir, hholds.listingOf_eq]⟩
  · rintro ⟨path, hpath, names, hholds, hdir⟩
    have hfound := fromHost?_eq_some_iff.mpr ⟨names, hholds, rfl⟩
    exact ⟨_, List.mem_filterMap.mpr ⟨path, hpath, hfound⟩,
      by rw [hdir, hholds.listingOf_eq]⟩

theorem touched_of_ne_root (h : mount.touched rootPath paths ≠ .root) :
    mount.touched rootPath paths =
      .dirs (ascending ((paths.filterMap mount.fromHost?).map listingOf)) := by
  unfold touched at h ⊢
  dsimp only at h ⊢
  split
  · rename_i hroot
    rw [if_pos hroot] at h
    exact absurd rfl h
  · rfl

theorem touched_congr (h : ∀ path, path ∈ a ↔ path ∈ b) :
    mount.touched rootPath a = mount.touched rootPath b := by
  have hroot : mount.touched rootPath a = .root ↔ mount.touched rootPath b = .root := by
    simp only [touched_eq_root_iff, h]
  by_cases ha : mount.touched rootPath a = .root
  · rw [ha, hroot.mp ha]
  · rw [touched_of_ne_root ha, touched_of_ne_root (mt hroot.mpr ha)]
    refine congrArg Touched.dirs (eq_of_ascending (pairwise_ascending _) (pairwise_ascending _) ?_)
    intro dir
    simp only [mem_listings_iff, h]

/-- Reads a batch one path after another, with the directories found so far. A path at the root ends
it at once. -/
def gather (mount : Mount) (rootPath : String) : List String → List String → Touched
  | dirs, [] => .dirs dirs
  | dirs, path :: rest =>
    match mount.fromHost? path with
    | none => gather mount rootPath dirs rest
    | some found =>
      if found = rootPath then .root
      else gather mount rootPath (insertPath (listingOf found) dirs) rest

theorem gather_eq (dirs : List String) :
    mount.gather rootPath dirs paths =
      if (paths.filterMap mount.fromHost?).contains rootPath then .root
      else .dirs (((paths.filterMap mount.fromHost?).map listingOf).foldl
        (fun dirs dir => insertPath dir dirs) dirs) := by
  induction paths generalizing dirs with
  | nil => rfl
  | cons path rest ih =>
    rw [gather]
    cases hfound : mount.fromHost? path with
    | none => rw [List.filterMap_cons_none hfound, ih]
    | some found =>
      rw [List.filterMap_cons_some hfound, List.contains_cons]
      by_cases hroot : found = rootPath
      · simp [hroot]
      · have hother : (rootPath == found) = false := by simpa using Ne.symm hroot
        dsimp only
        rw [if_neg hroot, ih, hother, Bool.false_or, List.map_cons, List.foldl_cons]

theorem touched_eq_gather (mount : Mount) (rootPath : String) (paths : List String) :
    mount.touched rootPath paths = mount.gather rootPath [] paths := by
  have hascending (dirs : List String) :
      ascending dirs = dirs.foldl (fun dirs dir => insertPath dir dirs) [] := by
    have hreverse : ascending dirs = ascending dirs.reverse :=
      eq_of_ascending (pairwise_ascending dirs) (pairwise_ascending dirs.reverse) fun dir => by
        rw [mem_ascending, mem_ascending, List.mem_reverse]
    rw [hreverse, List.foldl_eq_foldr_reverse]
    rfl
  rw [gather_eq, ← hascending]
  rfl

/-- What a batch touches is exact: the root exactly if a path of the batch is there, and otherwise
the directories that list the paths at or below the base, each once. It depends on no order and no
repetition, it can be found out path after path, and of two batches in one it is what either of them
touches. -/
theorem touched_is_exact (mount : Mount) (rootPath : String) (paths later : List String) :
    (mount.touched rootPath paths = .root ↔
      ∃ path ∈ paths, ∃ names, mount.Holds path names ∧ rootPath = Path.render names) ∧
    (mount.touched rootPath paths ≠ .root → ∃ dirs, mount.touched rootPath paths = .dirs dirs ∧
      dirs.Pairwise (compare · · = .lt) ∧
      ∀ dir, dir ∈ dirs ↔
        ∃ path ∈ paths, ∃ names, mount.Holds path names ∧ dir = Path.render names.dropLast) ∧
    mount.touched rootPath paths = mount.gather rootPath [] paths ∧
    ((∀ path, path ∈ paths ↔ path ∈ later) →
      mount.touched rootPath paths = mount.touched rootPath later) ∧
    (mount.touched rootPath (paths ++ later) = .root ↔
      mount.touched rootPath paths = .root ∨ mount.touched rootPath later = .root) ∧
    ∀ a b, mount.touched rootPath paths = .dirs a → mount.touched rootPath later = .dirs b →
      ∃ dirs, mount.touched rootPath (paths ++ later) = .dirs dirs ∧
        dirs.Pairwise (compare · · = .lt) ∧ ∀ dir, dir ∈ dirs ↔ dir ∈ a ∨ dir ∈ b := by
  have hunion : mount.touched rootPath (paths ++ later) = .root ↔
      mount.touched rootPath paths = .root ∨ mount.touched rootPath later = .root := by
    simp only [touched_eq_root_iff, List.mem_append, or_and_right, exists_or]
  refine ⟨touched_eq_root_iff, fun h => ⟨_, touched_of_ne_root h, pairwise_ascending _,
    fun _ => mem_listings_iff⟩, touched_eq_gather .., touched_congr, hunion, fun a b ha hb => ?_⟩
  have hne : mount.touched rootPath paths ≠ .root := by simp [ha]
  have hne' : mount.touched rootPath later ≠ .root := by simp [hb]
  refine ⟨_, touched_of_ne_root (mt hunion.mp (not_or.mpr ⟨hne, hne'⟩)), pairwise_ascending _, ?_⟩
  intro dir
  have hfirst := (touched_of_ne_root hne).symm.trans ha
  have hsecond := (touched_of_ne_root hne').symm.trans hb
  rw [← Touched.dirs.inj hfirst, ← Touched.dirs.inj hsecond]
  simp only [mem_listings_iff, List.mem_append, or_and_right, exists_or]

/-- A path outside, two in one directory and one at the top, and then one at the root. -/
theorem mixed_batch_touches :
    touched ⟨"/srv/."⟩ "/root" ["/srv/a/new", "/else/x", "/srv/", "/srv/a//old"] =
        .dirs ["/", "/a"] ∧
      touched ⟨"/srv/."⟩ "/root" ["/srv/a/new", "/else/x", "/srv/", "/srv/a//old"] =
        touched ⟨"/srv/."⟩ "/root" ["/srv/", "/srv/a/new", "/srv/a//old", "/else/x", "/srv/"] ∧
      (∃ dirs, touched ⟨"/srv/."⟩ "/root"
          (["/srv/a/new", "/else/x", "/srv/", "/srv/a//old"] ++ ["/srv/b/c"]) = .dirs dirs ∧
        ∀ dir, dir ∈ dirs ↔ dir ∈ ["/", "/a"] ∨ dir ∈ ["/b"]) ∧
      touched ⟨"/srv/."⟩ "/root"
        (["/srv/a/new", "/else/x", "/srv/", "/srv/a//old"] ++ ["/srv/root"]) = .root := by
  have htouched : touched ⟨"/srv/."⟩ "/root" ["/srv/a/new", "/else/x", "/srv/", "/srv/a//old"] =
      .dirs ["/", "/a"] := by decide +kernel
  have hlater : touched ⟨"/srv/."⟩ "/root" ["/srv/b/c"] = .dirs ["/b"] := by decide +kernel
  have hroot : touched ⟨"/srv/."⟩ "/root" ["/srv/root"] = .root := by decide +kernel
  have hexact := touched_is_exact ⟨"/srv/."⟩ "/root"
    ["/srv/a/new", "/else/x", "/srv/", "/srv/a//old"]
  obtain ⟨dirs, heq, _, hmem⟩ := (hexact ["/srv/b/c"]).2.2.2.2.2 _ _ htouched hlater
  refine ⟨htouched, (hexact _).2.2.2.1 fun path => ?_, ⟨dirs, heq, hmem⟩,
    (hexact ["/srv/root"]).2.2.2.2.1.mpr (.inr hroot)⟩
  simp only [List.mem_cons]
  grind

end Mount

end Host

end LazyTree
