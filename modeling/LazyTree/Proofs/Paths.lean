import LazyTree.Path

/-!
Paths as lists of names. A normalized path is written by `render` from names, and the names are read
back by `segments`; on such paths a child adds a name at the end, the directory above loses the last
name, and a path covers those that its names begin.
-/
namespace LazyTree.Path
variable {a b names : List String} {name path dir other target : String} {p q : List Char}

/-- A text that can stand between separators of a normalized path. -/
def IsName (text : String) : Prop := text ≠ "" ∧ text ≠ "." ∧ '/' ∉ text.toList

instance (text : String) : Decidable (IsName text) := inferInstanceAs (Decidable (_ ∧ _ ∧ _))

/-- A text that can stand between separators of any path. -/
def IsPiece (text : String) : Prop := text ≠ "" ∧ '/' ∉ text.toList

theorem IsName.isPiece (h : IsName name) : IsPiece name := ⟨h.1, h.2.2⟩

theorem IsName.toList_ne_nil (h : IsName name) : name.toList ≠ [] := by
  simpa using h.1

theorem IsName.toList_ne_dot (h : IsName name) : name.toList ≠ ['.'] := fun heq =>
  h.2.1 (String.toList_inj.mp heq)

theorem isName_of_piece (hfree : '/' ∉ p) (hne : p ≠ []) (hdot : p ≠ ['.']) :
    IsName (String.ofList p) := by
  refine ⟨fun heq => hne ?_, fun heq => hdot ?_, by rwa [String.toList_ofList]⟩
  · simpa using congrArg String.toList heq
  · simpa using congrArg String.toList heq

theorem pieces_ne_nil (p : List Char) : pieces p ≠ [] := by
  cases p with
  | nil => simp [pieces]
  | cons c cs =>
    rw [pieces]
    split
    · simp
    · split <;> simp

theorem pieces_append (p q : List Char) : pieces (p ++ '/' :: q) = pieces p ++ pieces q := by
  induction p with
  | nil => simp [pieces]
  | cons c cs ih =>
    rw [List.cons_append, pieces, ih, pieces]
    split
    · rfl
    · cases hpieces : pieces cs with
      | nil => exact absurd hpieces (pieces_ne_nil cs)
      | cons first rest => rfl

theorem pieces_of_free (h : '/' ∉ p) : pieces p = [p] := by
  induction p with
  | nil => rfl
  | cons c cs ih =>
    obtain ⟨hc, hcs⟩ := not_or.mp (mt List.mem_cons.mpr h)
    rw [pieces, if_neg (Ne.symm hc), ih hcs]

theorem not_mem_of_mem_pieces (h : q ∈ pieces p) : '/' ∉ q := by
  induction p generalizing q with
  | nil => simp_all [pieces]
  | cons c cs ih =>
    rw [pieces] at h
    split at h
    · rcases List.mem_cons.mp h with rfl | h
      · exact List.not_mem_nil
      · exact ih h
    · rename_i hc
      cases hpieces : pieces cs with
      | nil => exact absurd hpieces (pieces_ne_nil cs)
      | cons first rest =>
        rw [hpieces] at h ih
        rcases List.mem_cons.mp h with rfl | h
        · exact mt List.mem_cons.mp (not_or.mpr ⟨Ne.symm hc, ih List.mem_cons_self⟩)
        · exact ih (List.mem_cons_of_mem _ h)

theorem isName_of_mem_segments (h : name ∈ segments path) : IsName name := by
  obtain ⟨piece, hpiece, rfl⟩ := List.mem_map.mp h
  obtain ⟨hmem, hkeep⟩ := List.mem_filter.mp hpiece
  obtain ⟨hne, hdot⟩ := of_decide_eq_true hkeep
  exact isName_of_piece (not_mem_of_mem_pieces hmem) hne hdot

theorem segments_of_isName (h : IsName name) : segments name = [name] := by
  have hpieces : pieces name.toList = [name.toList] := pieces_of_free h.2.2
  simp [segments, hpieces, h.toList_ne_nil, h.toList_ne_dot]

theorem segments_separated (a b : String) :
    segments (a ++ "/" ++ b) = segments a ++ segments b := by
  have hchars : (a ++ "/" ++ b).toList = a.toList ++ '/' :: b.toList := by simp
  rw [segments, hchars, pieces_append, List.filter_append, List.map_append]
  rfl

theorem segments_separator (path : String) : segments (path ++ "/") = segments path := by
  have hseparated := segments_separated path ""
  rwa [String.append_empty, show segments "" = [] from rfl, List.append_nil] at hseparated

theorem segments_child (dir : String) (hname : IsName name) :
    segments (child dir name) = segments dir ++ [name] := by
  unfold child
  split
  · rename_i hlast
    obtain ⟨stem, hstem⟩ := List.getLast?_eq_some_iff.mp hlast
    obtain rfl : dir = String.ofList stem ++ "/" := String.toList_inj.mp (by simp [hstem])
    rw [segments_separated, segments_separator, segments_of_isName hname]
  · rw [segments_separated, segments_of_isName hname]

def written (names : List String) : List Char := names.flatMap fun name => '/' :: name.toList

theorem written_append (a b : List String) : written (a ++ b) = written a ++ written b :=
  List.flatMap_append

theorem toList_render (hne : names ≠ []) : (render names).toList = written names := by
  cases names with
  | nil => exact absurd rfl hne
  | cons name rest => simp [render, written, List.flatMap_map]

theorem pieces_written (hfree : '/' ∉ p) (h : ∀ name ∈ names, '/' ∉ name.toList) :
    pieces (p ++ written names) = p :: names.map String.toList := by
  induction names generalizing p with
  | nil => rw [written, List.flatMap_nil, List.append_nil, pieces_of_free hfree, List.map_nil]
  | cons name rest ih =>
    have hwritten : p ++ written (name :: rest) = p ++ '/' :: (name.toList ++ written rest) := by
      simp [written]
    rw [hwritten, pieces_append, pieces_of_free hfree,
      ih (h name List.mem_cons_self) fun n hn => h n (List.mem_cons_of_mem name hn)]
    rfl

theorem pieces_render (h : ∀ name ∈ names, '/' ∉ name.toList) :
    (pieces (render names).toList).filter (fun p => p ≠ []) =
      (names.map String.toList).filter (fun p => p ≠ []) := by
  cases names with
  | nil => rfl
  | cons name rest =>
    have hpieces := pieces_written (p := []) List.not_mem_nil h
    rw [toList_render (by simp), ← List.nil_append (written _), hpieces]
    rfl

theorem filter_pieces (path : String) :
    (pieces path.toList).filter (fun p => p ≠ [] ∧ p ≠ ['.']) =
      ((pieces path.toList).filter (fun p => p ≠ [])).filter (fun p => p ≠ ['.']) := by
  rw [List.filter_filter]
  refine List.filter_congr fun piece _ => ?_
  by_cases hne : piece = [] <;> simp [hne]

theorem map_ofList_toList (names : List String) :
    (names.map String.toList).map String.ofList = names := by
  rw [List.map_map]
  exact List.map_id'' (fun name => String.ofList_toList) names

theorem namedPieces_render (h : ∀ name ∈ names, IsName name) :
    namedPieces (render names) = names := by
  have hne : ∀ p ∈ names.map String.toList, p ≠ [] := by
    intro p hp
    obtain ⟨name, hname, rfl⟩ := List.mem_map.mp hp
    exact (h name hname).toList_ne_nil
  rw [namedPieces, pieces_render fun name hname => (h name hname).2.2,
    List.filter_eq_self.mpr (by simpa using hne), map_ofList_toList]

theorem segments_render (h : ∀ name ∈ names, IsName name) : segments (render names) = names := by
  have hproper : ∀ p ∈ names.map String.toList, p ≠ [] ∧ p ≠ ['.'] := by
    intro p hp
    obtain ⟨name, hname, rfl⟩ := List.mem_map.mp hp
    exact ⟨(h name hname).toList_ne_nil, (h name hname).toList_ne_dot⟩
  rw [segments, filter_pieces, pieces_render fun name hname => (h name hname).2.2,
    List.filter_filter, List.filter_eq_self.mpr, map_ofList_toList]
  intro p hp
  obtain ⟨hne, hdot⟩ := hproper p hp
  simp [hne, hdot]

theorem segments_normalize (path : String) : segments (normalize path) = segments path :=
  segments_render fun _ => isName_of_mem_segments

theorem normalize_render (h : ∀ name ∈ names, IsName name) :
    normalize (render names) = render names := by
  rw [normalize, segments_render h]

theorem render_inj (ha : ∀ name ∈ a, IsName name) (hb : ∀ name ∈ b, IsName name) :
    render a = render b ↔ a = b := by
  refine ⟨fun heq => ?_, congrArg render⟩
  rw [← segments_render ha, ← segments_render hb, heq]

def Normal (path : String) : Prop := normalize path = path

instance (path : String) : Decidable (Normal path) :=
  inferInstanceAs (Decidable (normalize path = path))

theorem normal_render (h : ∀ name ∈ names, IsName name) : Normal (render names) :=
  normalize_render h

theorem normal_normalize (path : String) : Normal (normalize path) :=
  normal_render fun _ => isName_of_mem_segments

theorem Normal.render_segments (h : Normal path) : render (segments path) = path := h

theorem Normal.namedPieces_eq (h : Normal path) : namedPieces path = segments path := by
  rw [← h.render_segments, namedPieces_render fun _ => isName_of_mem_segments, h.render_segments]

theorem Normal.firstSegments_eq (h : Normal path) (count : Nat) :
    firstSegments path count = render ((segments path).take count) := by
  rw [firstSegments, h.namedPieces_eq]

theorem isName_of_mem_take {count : Nat} (h : name ∈ (segments path).take count) : IsName name :=
  isName_of_mem_segments (List.mem_of_mem_take h)

theorem Normal.segments_firstSegments (h : Normal path) (count : Nat) :
    segments (firstSegments path count) = (segments path).take count := by
  rw [h.firstSegments_eq, segments_render fun _ => isName_of_mem_take]

theorem Normal.firstSegments (h : Normal path) (count : Nat) :
    Normal (firstSegments path count) := by
  rw [h.firstSegments_eq]
  exact normal_render fun _ => isName_of_mem_take

theorem getLast?_written (hne : names ≠ []) (h : ∀ name ∈ names, IsName name) :
    (written names).getLast? ≠ some '/' := by
  obtain ⟨first, last, rfl⟩ := (List.eq_nil_or_concat names).resolve_left hne
  have hlast := h last (by simp)
  have hwritten : written [last] = '/' :: last.toList := List.flatMap_singleton ..
  rw [List.concat_eq_append, written_append, hwritten, List.getLast?_append, List.getLast?_cons]
  cases hchars : last.toList.getLast? with
  | none => exact absurd (List.getLast?_eq_none_iff.mp hchars) hlast.toList_ne_nil
  | some c =>
    intro heq
    have hc : c = '/' := by simpa using heq
    exact hlast.2.2 (hc ▸ List.mem_of_getLast? hchars)

theorem child_render (h : ∀ name ∈ names, IsName name) (name : String) :
    child (render names) name = render (names ++ [name]) := by
  refine String.toList_inj.mp ?_
  rw [toList_render (by simp), written_append, child]
  by_cases hne : names = []
  · subst hne
    simp [render, written]
  · rw [toList_render hne, if_neg (getLast?_written hne h)]
    simp [toList_render hne, written]

theorem Normal.child (h : Normal path) (hname : IsName name) : Normal (child path name) := by
  rw [← h.render_segments, child_render fun _ => isName_of_mem_segments]
  refine normal_render ?_
  simpa [or_imp, forall_and] using And.intro (fun _ => isName_of_mem_segments) hname

theorem trimmedReverse_render (h : ∀ name ∈ names, IsName name) :
    trimmedReverse (render names) = (written names).reverse := by
  by_cases hne : names = []
  · subst hne
    rfl
  · rw [trimmedReverse, toList_render hne]
    have hlast := getLast?_written hne h
    rw [← List.head?_reverse] at hlast
    cases hrev : (written names).reverse with
    | nil => rfl
    | cons c cs =>
      rw [hrev] at hlast
      exact List.dropWhile_cons_of_neg (by simpa using hlast)

theorem above?_render (h : ∀ name ∈ names, IsName name) (hname : IsName name) :
    above? (render (names ++ [name])) = some (render names) := by
  have hall : ∀ n ∈ names ++ [name], IsName n := by
    simpa [or_imp, forall_and] using And.intro h hname
  have hdrop : (written (names ++ [name])).reverse.dropWhile (fun c => c ≠ '/') =
      '/' :: (written names).reverse := by
    have hfree : ∀ c ∈ name.toList.reverse, (decide (c ≠ '/')) = true := by
      rintro c hc
      rw [decide_eq_true_eq]
      rintro rfl
      exact hname.2.2 (List.mem_reverse.mp hc)
    have hlast : written [name] = '/' :: name.toList := List.flatMap_singleton ..
    rw [written_append, hlast, List.reverse_append, List.reverse_cons, List.append_assoc,
      List.dropWhile_append_of_pos hfree]
    simp
  rw [above?, trimmedReverse_render hall, hdrop]
  by_cases hne : names = []
  · subst hne
    rfl
  · have hwritten : (written names).reverse ≠ [] := by
      cases names with
      | nil => exact absurd rfl hne
      | cons first rest => simp [written]
    cases hrev : (written names).reverse with
    | nil => exact absurd hrev hwritten
    | cons c cs =>
      dsimp only
      rw [← hrev, List.reverse_reverse, ← toList_render hne, String.ofList_toList]

theorem Normal.above?_child (h : Normal dir) (hname : IsName name) :
    above? (Path.child dir name) = some dir := by
  have hnames : ∀ n ∈ segments dir, IsName n := fun _ => isName_of_mem_segments
  rw [← h.render_segments, child_render hnames, above?_render hnames hname]

theorem Normal.exists_child (h : Normal path) (hne : path ≠ "/") :
    ∃ dir name, Normal dir ∧ IsName name ∧ Path.child dir name = path := by
  have hall : ∀ name ∈ segments path, IsName name := fun _ => isName_of_mem_segments
  cases List.eq_nil_or_concat (segments path) with
  | inl hnil =>
    rw [← h.render_segments, hnil] at hne
    exact absurd rfl hne
  | inr hconcat =>
    obtain ⟨names, name, hsegments⟩ := hconcat
    rw [List.concat_eq_append] at hsegments
    rw [hsegments] at hall
    have hnames : ∀ n ∈ names, IsName n := fun n hn => hall n (List.mem_append_left _ hn)
    refine ⟨render names, name, normal_render hnames, hall name (by simp), ?_⟩
    rw [child_render hnames, ← hsegments, h.render_segments]

theorem Normal.above?_eq_some (h : Normal path) (hdir : above? path = some dir) :
    ∃ name, segments path = segments dir ++ [name] := by
  by_cases htop : path = "/"
  · subst htop
    cases hdir
  · obtain ⟨above, name, habove, hname, rfl⟩ := h.exists_child htop
    rw [habove.above?_child hname, Option.some.injEq] at hdir
    exact ⟨name, hdir ▸ segments_child above hname⟩

theorem after?_eq_some_iff {lead text rest : List Char} :
    after? lead text = some rest ↔ text = lead ++ rest := by
  fun_induction after? lead text with
  | case1 text => simp [eq_comm]
  | case2 => simp
  | case3 lead a text ih => simp [ih]
  | case4 a lead b text hne => simp [Ne.symm hne]

theorem startsWithSeparator_iff {text : List Char} :
    startsWithSeparator text = true ↔ ∃ rest, text = '/' :: rest := by
  cases text <;> simp [startsWithSeparator]

theorem covers_self (path : String) : covers path path = true := by simp [covers]

theorem covers_top_iff : covers "/" path = true ↔ ∃ rest, path.toList = '/' :: rest := by
  unfold covers
  split
  · rename_i heq
    exact iff_of_true rfl ⟨[], by simp [← heq]⟩
  · exact startsWithSeparator_iff

theorem covers_iff {parent : String} (htop : parent ≠ "/") :
    covers parent path = true ↔
      parent = path ∨ ∃ rest, path.toList = parent.toList ++ '/' :: rest := by
  unfold covers
  by_cases heq : parent = path
  · simp [heq]
  · rw [if_neg heq, if_neg htop]
    cases hafter : after? parent.toList path.toList with
    | none =>
      refine iff_of_false Bool.false_ne_true ?_
      rintro (hsame | ⟨rest, hrest⟩)
      · exact heq hsame
      · rw [after?_eq_some_iff.mpr hrest] at hafter
        cases hafter
    | some text =>
      rw [after?_eq_some_iff] at hafter
      simp [heq, startsWithSeparator_iff, hafter]

theorem mem_pieces_child {dir : String} (h : IsPiece name) :
    name.toList ∈ pieces (child dir name).toList := by
  have hlast (stem : List Char) : name.toList ∈ pieces (stem ++ '/' :: name.toList) := by
    simp [pieces_append, pieces_of_free h.2]
  unfold child
  split
  · rename_i hdir
    obtain ⟨stem, hstem⟩ := List.getLast?_eq_some_iff.mp hdir
    simpa [hstem] using hlast stem
  · simpa using hlast dir.toList

theorem mem_pieces_of_covers {parent : String} (htop : parent ≠ "/")
    (h : covers parent path = true) (hp : p ∈ pieces parent.toList) : p ∈ pieces path.toList := by
  rcases (covers_iff htop).mp h with rfl | ⟨rest, hrest⟩
  · exact hp
  · rw [hrest, pieces_append]
    exact List.mem_append_left _ hp

/-- What lies on the way to a normalized path has names only. -/
theorem Normal.isName_of_covers {dir target : String} (h : Normal target) (hname : IsPiece name)
    (hcovers : covers (Path.child dir name) target = true) : IsName name := by
  refine ⟨hname.1, ?_, hname.2⟩
  rintro rfl
  have hdot : ['.'] ∈ pieces (Path.child dir ".").toList := mem_pieces_child hname
  have htop : Path.child dir "." ≠ "/" := by
    intro heq
    rw [heq] at hdot
    exact absurd hdot (by decide)
  have hmem : "." ∈ namedPieces target :=
    List.mem_map.mpr ⟨['.'], by simpa using mem_pieces_of_covers htop hcovers hdot, rfl⟩
  rw [h.namedPieces_eq] at hmem
  exact (isName_of_mem_segments hmem).2.1 rfl

theorem covers_render_iff (ha : ∀ name ∈ a, IsName name) (hb : ∀ name ∈ b, IsName name) :
    covers (render a) (render b) = true ↔ a <+: b := by
  by_cases hne : a = []
  · subst hne
    refine iff_of_true (covers_top_iff.mpr ?_) List.nil_prefix
    cases b with
    | nil => exact ⟨[], rfl⟩
    | cons name rest => exact ⟨_, toList_render (by simp)⟩
  · have htop : render a ≠ "/" := mt (render_inj (b := []) ha (by simp)).mp hne
    rw [covers_iff htop, render_inj ha hb, toList_render hne]
    constructor
    · rintro (rfl | ⟨rest, hrest⟩)
      · exact List.prefix_refl a
      · have hbne : b ≠ [] := by
          rintro rfl
          have hlong := congrArg List.length hrest
          cases a with
          | nil => exact hne rfl
          | cons name others => simp [render, written] at hlong
        have hpieces := congrArg pieces hrest
        rw [toList_render hbne, pieces_append, ← List.nil_append (written a),
          ← List.nil_append (written b),
          pieces_written List.not_mem_nil fun name hname => (ha name hname).2.2,
          pieces_written List.not_mem_nil fun name hname => (hb name hname).2.2,
          List.cons_append, List.cons.injEq] at hpieces
        have hnames := congrArg (List.map String.ofList) hpieces.2
        rw [List.map_append, map_ofList_toList, map_ofList_toList] at hnames
        exact ⟨_, hnames.symm⟩
    · rintro ⟨rest, rfl⟩
      cases rest with
      | nil => exact .inl (List.append_nil a).symm
      | cons name others =>
        refine .inr ⟨name.toList ++ written others, ?_⟩
        rw [toList_render (by simp), written_append]
        simp [written]

theorem Normal.covers_iff {path other : String} (h : Normal path) (h' : Normal other) :
    covers path other = true ↔ segments path <+: segments other := by
  rw [← covers_render_iff (fun _ => isName_of_mem_segments) (fun _ => isName_of_mem_segments),
    h.render_segments, h'.render_segments]

theorem Normal.eq_iff {path other : String} (h : Normal path) (h' : Normal other) :
    path = other ↔ segments path = segments other := by
  rw [← render_inj (fun _ => isName_of_mem_segments) (fun _ => isName_of_mem_segments),
    h.render_segments, h'.render_segments]

theorem Normal.covers_antisymm (h : Normal path) (h' : Normal other)
    (hcovers : covers path other = true) (hback : covers other path = true) : path = other := by
  rw [h.covers_iff h'] at hcovers
  rw [h'.covers_iff h] at hback
  exact (h.eq_iff h').mpr
    (hcovers.eq_of_length (Nat.le_antisymm hcovers.length_le hback.length_le))

theorem Normal.covers_trans (h : Normal path) (h' : Normal other) (htarget : Normal target)
    (hcovers : covers path other = true) (hfurther : covers other target = true) :
    covers path target = true := by
  rw [h.covers_iff h'] at hcovers
  rw [h'.covers_iff htarget] at hfurther
  exact (h.covers_iff htarget).mpr (hcovers.trans hfurther)

theorem Normal.covers_or_covers (h : Normal path) (h' : Normal other) (htarget : Normal target)
    (hcovers : covers path target = true) (hcovers' : covers other target = true) :
    covers path other = true ∨ covers other path = true := by
  rw [h.covers_iff htarget] at hcovers
  rw [h'.covers_iff htarget] at hcovers'
  rw [h.covers_iff h', h'.covers_iff h]
  exact List.prefix_or_prefix_of_prefix hcovers hcovers'

theorem Normal.covers_child (h : Normal dir) (hname : IsName name) :
    covers dir (Path.child dir name) = true := by
  rw [h.covers_iff (h.child hname), segments_child dir hname]
  exact List.prefix_append _ _

theorem Normal.child_not_covers (h : Normal dir) (hname : IsName name) :
    covers (Path.child dir name) dir = false := by
  rw [Bool.eq_false_iff, ne_eq, (h.child hname).covers_iff h, segments_child dir hname]
  intro hbegins
  have hlength := hbegins.length_le
  rw [List.length_append, List.length_singleton] at hlength
  omega

end LazyTree.Path
