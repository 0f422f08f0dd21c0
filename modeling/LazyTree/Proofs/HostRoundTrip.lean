import LazyTree.Proofs.HostPaths

/-!
The way to the host and back. A mount with an absolute base and its reading of host paths undo each
other: a host path is read exactly if it begins with the components of the base, and what is read
leads to the same components again, the names `..` among them.
-/
namespace LazyTree.Host
variable {base host path name : String} {rest : List Component} {mount : Mount}

theorem Component.ofName_ne_root (text : String) : ofName text ≠ .root := by
  unfold ofName
  split <;> simp

theorem isAbsolute_of_components (h : components path = .root :: rest) :
    isAbsolute path = true := by
  cases habsolute : isAbsolute path with
  | true => rfl
  | false =>
    have hroot : .root ∈ components path := h ▸ List.mem_cons_self
    rw [components_eq, leadingComponent_eq, habsolute, if_neg Bool.false_ne_true] at hroot
    rcases List.mem_append.mp hroot with hleading | hnamed
    · split at hleading <;> simp at hleading
    · obtain ⟨text, _, heq⟩ := List.mem_map.mp hnamed
      exact absurd heq (Component.ofName_ne_root text)

theorem components_of_isAbsolute (h : isAbsolute path = true) :
    components path = .root :: (Path.segments path).map Component.ofName := by
  rw [components_eq, leadingComponent_eq, if_pos h]
  rfl

theorem exists_names_of_below? (habsolute : isAbsolute base = true)
    (h : below? base host = some rest) :
    ∃ names : List String, (∀ name ∈ names, Path.IsName name) ∧
      rest = names.map Component.ofName := by
  rw [below?_eq_some_iff, components_of_isAbsolute habsolute, List.cons_append] at h
  have hhost := isAbsolute_of_components h
  rw [components_of_isAbsolute hhost, List.cons.injEq] at h
  obtain ⟨above, names, hsegments, _, hnames⟩ := List.map_eq_append_iff.mp h.2
  refine ⟨names, fun name hname => ?_, hnames.symm⟩
  exact Path.isName_of_mem_segments (hsegments ▸ List.mem_append_right above hname)

namespace Mount

theorem fromHost?_congr (h : components host = components path) :
    mount.fromHost? host = mount.fromHost? path := by
  rw [fromHost?, fromHost?, below?, below?, h]

theorem isSome_fromHost?_iff :
    (mount.fromHost? host).isSome = true ↔ components mount.base <+: components host := by
  rw [fromHost?, Option.isSome_map, Option.isSome_iff_exists]
  exact exists_congr fun rest => below?_eq_some_iff.trans eq_comm

theorem components_onHost_of_fromHost? (habsolute : isAbsolute mount.base = true)
    (h : mount.fromHost? host = some path) :
    Path.Normal path ∧ components (mount.onHost path) = components host := by
  obtain ⟨rest, hbelow, _⟩ := Option.map_eq_some_iff.mp h
  obtain ⟨names, hnames, rfl⟩ := exists_names_of_below? habsolute hbelow
  have htop : below? (mount.onHost "/") host = some (names.map Component.ofName) := hbelow
  obtain ⟨found, hfound, hnormal, hsegments⟩ :=
    mount.fromHost?_of_below (Path.normal_normalize "/") htop
  obtain rfl := Option.some.inj (hfound.symm.trans h)
  rw [flatMap_segments_names hnames] at hsegments
  refine ⟨hnormal, ?_⟩
  rw [mount.components_onHost hnormal, hsegments, below?_eq_some_iff.mp hbelow]
  rfl

theorem fromHost?_iff_of_isAbsolute (habsolute : isAbsolute mount.base = true) :
    mount.fromHost? host = some path ↔
      Path.Normal path ∧ components (mount.onHost path) = components host := by
  refine ⟨components_onHost_of_fromHost? habsolute, fun ⟨hnormal, hsame⟩ => ?_⟩
  rw [← fromHost?_congr hsame, mount.fromHost?_onHost hnormal]

theorem components_onHost_child (habsolute : isAbsolute mount.base = true) (path : String)
    (hname : Path.IsName name) :
    components (mount.onHost (Path.child path name)) =
      components (mount.onHost path) ++ [.ofName name] := by
  have hbase : mount.base ≠ "" := by
    intro hempty
    rw [hempty] at habsolute
    cases habsolute
  rw [mount.components_onHost_of_leading (absurd · hbase),
    mount.components_onHost_of_leading (absurd · hbase), Path.segments_child path hname,
    List.map_append, List.append_assoc]
  rfl

/-- Virtual paths and the host paths at or below an absolute base stand for each other. A normalized
path comes back from the host as it was; a host path is read exactly if its components begin with
those of the base, and as the one normalized path that leads to the same components; and a step down
by a name is a step down by that component. -/
theorem fromHost?_inverts_onHost (mount : Mount) (habsolute : isAbsolute mount.base = true) :
    (∀ path, Path.Normal path → mount.fromHost? (mount.onHost path) = some path) ∧
    (∀ host, ((mount.fromHost? host).isSome = true ↔
        components mount.base <+: components host) ∧
      ∀ path, mount.fromHost? host = some path ↔
        Path.Normal path ∧ components (mount.onHost path) = components host) ∧
    ∀ path name, Path.IsName name →
      components (mount.onHost (Path.child path name)) =
        components (mount.onHost path) ++ [.ofName name] := by
  refine ⟨fun path => mount.fromHost?_onHost, fun host => ⟨isSome_fromHost?_iff, fun path => ?_⟩,
    fun path name => components_onHost_child habsolute path⟩
  exact fromHost?_iff_of_isAbsolute habsolute

/-- Separators and dots do not count, also in the base, and a `..` stays where it is. -/
theorem dotted_base_inverts :
    isAbsolute "/srv//./vol/" = true ∧
      Mount.fromHost? ⟨"/srv//./vol/"⟩ (Mount.onHost ⟨"/srv//./vol/"⟩ "/../é") = some "/../é" ∧
      Mount.fromHost? ⟨"/srv//./vol/"⟩ "/srv/vol/./a//../b/" = some "/a/../b" ∧
      Mount.fromHost? ⟨"/srv//./vol/"⟩ "/srv/volume/a" = none := by
  have habsolute : isAbsolute "/srv//./vol/" = true := by decide
  obtain ⟨hback, hread, _⟩ := fromHost?_inverts_onHost ⟨"/srv//./vol/"⟩ habsolute
  refine ⟨habsolute, hback "/../é" (by decide), ?_, ?_⟩
  · exact ((hread _).2 _).mpr ⟨by decide, by decide⟩
  · rw [← Option.not_isSome_iff_eq_none, (hread _).1]
    decide

end Mount

end LazyTree.Host
