import LazyTree.Host.Mount
import LazyTree.Proofs.Paths

/-!
Where a mount puts virtual paths on the host. The components of the host path are those of the base
and one for each name, and the way back reads the names after the base.
-/
namespace LazyTree

namespace Path
variable {path name : String} {p q : List Char}

theorem segments_intercalate (texts : List String) :
    segments (String.intercalate "/" texts) = texts.flatMap segments := by
  induction texts with
  | nil => rfl
  | cons text rest ih =>
    cases rest with
    | nil => simp
    | cons next rest =>
      rw [String.intercalate_cons_cons, segments_separated, ih, ← List.flatMap_cons]

end Path

namespace Host
variable {base path rest : String} {names : List String} {mount : Mount}

namespace Component

def ofName (text : String) : Component := if text = ".." then .up else .name text

theorem text_ofName (text : String) : (ofName text).text = text := by
  unfold ofName
  split
  · exact Eq.symm ‹_›
  · rfl

theorem ofPiece_eq (piece : List Char) : ofPiece piece = ofName (String.ofList piece) := by
  have hiff : String.ofList piece = ".." ↔ piece = ['.', '.'] := by
    rw [← String.toList_inj, String.toList_ofList]
    rfl
  simp [ofPiece, ofName, hiff]

theorem segments_text_ofName {text : String} (h : Path.IsName text) :
    Path.segments (ofName text).text = [text] := by
  rw [text_ofName, Path.segments_of_isName h]

end Component

theorem components_eq (path : String) :
    components path = leadingComponent path ++ (Path.segments path).map Component.ofName := by
  rw [components, Path.segments, List.map_map]
  congr 2
  exact funext Component.ofPiece_eq

theorem remainder?_eq_some_iff {base path rest : List Component} :
    remainder? base path = some rest ↔ path = base ++ rest := by
  fun_induction remainder? base path with
  | case1 path => simp [eq_comm]
  | case2 => simp
  | case3 base a path ih => simp [ih]
  | case4 a base b path hne => simp [Ne.symm hne]

theorem below?_eq_some_iff {rest : List Component} :
    below? base path = some rest ↔ components path = components base ++ rest :=
  remainder?_eq_some_iff

theorem leadingComponent_eq (path : String) :
    leadingComponent path =
      if isAbsolute path then [.root]
      else if (Path.pieces path.toList).head? = some ['.'] then [.current]
      else [] := by
  unfold leadingComponent
  congr 1
  cases hpieces : Path.pieces path.toList with
  | nil => exact absurd hpieces (Path.pieces_ne_nil _)
  | cons piece rest =>
    split
    · simp_all
    · rw [if_neg]
      simp_all

theorem segments_leadingComponent (path : String) :
    (leadingComponent path).flatMap (fun c => Path.segments c.text) = [] := by
  rw [leadingComponent_eq]
  split
  · decide
  · split <;> decide

theorem flatMap_segments_names (h : ∀ name ∈ names, Path.IsName name) :
    (names.map Component.ofName).flatMap (fun c => Path.segments c.text) = names := by
  induction names with
  | nil => rfl
  | cons name rest ih =>
    obtain ⟨hname, hrest⟩ := List.forall_mem_cons.mp h
    rw [List.map_cons, List.flatMap_cons, ih hrest, Component.segments_text_ofName hname]
    rfl

theorem flatMap_segments_components (path : String) :
    (components path).flatMap (fun c => Path.segments c.text) = Path.segments path := by
  rw [components_eq, List.flatMap_append, segments_leadingComponent, List.nil_append,
    flatMap_segments_names fun _ => Path.isName_of_mem_segments]

theorem mem_segments_of_name {text : String} (h : .name text ∈ components path) :
    text ∈ Path.segments path := by
  rw [components_eq, leadingComponent_eq] at h
  obtain ⟨segment, hsegment, heq⟩ : ∃ segment ∈ Path.segments path,
      Component.ofName segment = .name text := by
    rw [← List.mem_map]
    refine (List.mem_append.mp h).resolve_left ?_
    split
    · simp
    · split <;> simp
  have htext : segment = text := by rw [← Component.text_ofName segment, heq]; rfl
  exact htext ▸ hsegment

theorem getLast?_components {name : String} (h : (Path.segments path).getLast? = some name) :
    (components path).getLast? = some (.ofName name) := by
  rw [components_eq, List.getLast?_append, List.getLast?_map, h]
  rfl

theorem leadingComponent_separated (base rest : String) :
    leadingComponent (base ++ "/" ++ rest) =
      if base = "" then [.root] else leadingComponent base := by
  have hpieces := Path.pieces_append base.toList rest.toList
  cases hbase : base.toList with
  | nil =>
    obtain rfl : base = "" := by simpa using hbase
    simp [leadingComponent_eq, isAbsolute, Path.startsWithSeparator]
  | cons c cs =>
    have hne : base ≠ "" := by
      rintro rfl
      cases hbase
    rw [hbase] at hpieces
    have hhead : (Path.pieces (c :: cs ++ '/' :: rest.toList)).head? =
        (Path.pieces (c :: cs)).head? := by
      rw [hpieces, List.head?_append, List.head?_eq_some_head (Path.pieces_ne_nil _)]
      rfl
    rw [List.cons_append] at hhead
    simp [leadingComponent_eq, isAbsolute, hbase, hne, hhead, Path.startsWithSeparator]

theorem components_separated (base rest : String) :
    components (base ++ "/" ++ rest) =
      components (base ++ "/") ++ (Path.segments rest).map Component.ofName := by
  have hempty := leadingComponent_separated base ""
  rw [String.append_empty] at hempty
  rw [components_eq, components_eq, leadingComponent_separated, hempty, Path.segments_separated,
    Path.segments_separator, List.map_append, List.append_assoc]

theorem components_extend (hleading : base = "" → leadingComponent rest = []) :
    components (extend base rest) =
      components base ++ (Path.segments rest).map Component.ofName := by
  unfold extend
  split
  · rename_i hlast
    obtain rfl : base = "" := by simpa using hlast
    rw [components_eq rest, hleading rfl]
    rfl
  · rename_i hlast
    obtain ⟨stem, hstem⟩ := List.getLast?_eq_some_iff.mp hlast
    obtain rfl : base = String.ofList stem ++ "/" := String.toList_inj.mp (by simp [hstem])
    exact components_separated _ rest
  · rename_i hlast
    have hne : base ≠ "" := by
      rintro rfl
      cases hlast
    rw [components_eq, leadingComponent_separated, if_neg hne, Path.segments_separated,
      List.map_append, ← List.append_assoc, ← components_eq]

def bare (path : String) : String := String.ofList (path.toList.dropWhile fun c => c = '/')

theorem segments_bare (path : String) : Path.segments (bare path) = Path.segments path := by
  rw [Path.segments, Path.segments, bare, String.toList_ofList]
  induction path.toList with
  | nil => rfl
  | cons c cs ih =>
    by_cases hc : c = '/'
    · subst hc
      rw [List.dropWhile_cons_of_pos (by simp), ih, Path.pieces, if_pos rfl,
        List.filter_cons_of_neg (by simp)]
    · rw [List.dropWhile_cons_of_neg (by simpa using hc)]

theorem isAbsolute_bare (path : String) : isAbsolute (bare path) = false := by
  rw [isAbsolute, bare, String.toList_ofList]
  induction path.toList with
  | nil => rfl
  | cons c cs ih =>
    by_cases hc : c = '/'
    · rwa [List.dropWhile_cons_of_pos (by simpa using hc)]
    · rw [List.dropWhile_cons_of_neg (by simpa using hc)]
      exact decide_eq_false hc

theorem leadingComponent_bare (h : Path.Normal path) : leadingComponent (bare path) = [] := by
  have hnames : ∀ name ∈ Path.segments path, Path.IsName name := fun _ =>
    Path.isName_of_mem_segments
  rw [leadingComponent_eq, isAbsolute_bare, if_neg Bool.false_ne_true, if_neg]
  rw [bare, String.toList_ofList, ← h.render_segments]
  cases hsegments : Path.segments path with
  | nil => decide
  | cons name rest =>
    obtain ⟨hname, hrest⟩ := List.forall_mem_cons.mp (hsegments ▸ hnames)
    have hdrop : (Path.render (name :: rest)).toList.dropWhile (fun c => c = '/') =
        name.toList ++ Path.written rest := by
      rw [Path.toList_render (by simp)]
      cases hfirst : name.toList with
      | nil => exact absurd hfirst hname.toList_ne_nil
      | cons c cs =>
        have hc : c ≠ '/' := by
          rintro rfl
          exact hname.2.2 (hfirst ▸ List.mem_cons_self)
        simp [Path.written, hfirst, hc]
    rw [hdrop, Path.pieces_written hname.2.2 fun n hn => (hrest n hn).2.2]
    simpa using hname.toList_ne_dot

namespace Mount

theorem components_onHost_of_leading (mount : Mount)
    (h : mount.base = "" → leadingComponent (bare path) = []) :
    components (mount.onHost path) =
      components mount.base ++ (Path.segments path).map Component.ofName := by
  have hchars : (bare path).toList = path.toList.dropWhile fun c => c = '/' :=
    String.toList_ofList
  rw [← segments_bare, onHost, ← hchars]
  split
  · rename_i hempty
    obtain hbare : bare path = "" := by simpa using hempty
    rw [hbare]
    exact (List.append_nil _).symm
  · rw [String.ofList_toList, components_extend h]

theorem components_onHost (mount : Mount) (h : Path.Normal path) :
    components (mount.onHost path) =
      components mount.base ++ (Path.segments path).map Component.ofName :=
  mount.components_onHost_of_leading fun _ => leadingComponent_bare h

/-- What lies below a path of a mount is read back below that path. -/
theorem fromHost?_of_below (mount : Mount) {top : String} (htop : Path.Normal top)
    {below : List Component} (h : below? (mount.onHost top) path = some below) :
    ∃ found, mount.fromHost? path = some found ∧ Path.Normal found ∧
      Path.segments found =
        Path.segments top ++ below.flatMap fun c => Path.segments c.text := by
  have hbelow : below? mount.base path =
      some ((Path.segments top).map Component.ofName ++ below) := by
    rw [below?_eq_some_iff] at h ⊢
    rw [h, mount.components_onHost htop, List.append_assoc]
  refine ⟨_, by rw [fromHost?, hbelow]; rfl, Path.normal_normalize _, ?_⟩
  rw [Path.segments_normalize, Path.segments_intercalate, List.flatMap_map, List.flatMap_append,
    flatMap_segments_names fun _ => Path.isName_of_mem_segments]

theorem fromHost?_onHost (mount : Mount) (h : Path.Normal path) :
    mount.fromHost? (mount.onHost path) = some path := by
  have hself : below? (mount.onHost path) (mount.onHost path) = some [] :=
    below?_eq_some_iff.mpr (List.append_nil _).symm
  obtain ⟨found, hfound, hnormal, hsegments⟩ := mount.fromHost?_of_below h hself
  rw [List.flatMap_nil, List.append_nil] at hsegments
  rw [hfound, (hnormal.eq_iff h).mpr hsegments]

end Mount

end Host

end LazyTree
