import LazyTree.Proofs.Names
import LazyTree.Proofs.Paths

/-!
Normalized paths as a tree. Each is written in one way from its names; it lies at or below another
exactly if the names of the other begin its own; and a step down by a name and the step up undo each
other, so the top is as many steps away as there are names.
-/
namespace LazyTree.Path
variable {dir name path text : String}

theorem pieces_eq_splitOn (text : List Char) : pieces text = text.splitOn '/' := by
  induction text with
  | nil => simp [pieces]
  | cons c cs ih =>
    rw [pieces, ih, List.splitOn_cons_eq_if_modifyHead]
    by_cases hc : c = '/'
    · simp [hc]
    · cases hsplit : cs.splitOn '/' with
      | nil => exact absurd (ih.trans hsplit) (pieces_ne_nil cs)
      | cons first rest => simp [hc]

/-- A text that is written as a path: a separator alone, or one before each of its names. -/
def IsWritten (text : String) : Prop :=
  text = "/" ∨ ∃ names, names ≠ [] ∧ (∀ name ∈ names, IsName name) ∧ text.toList = written names

theorem isWritten_iff : IsWritten text ↔ Normal text := by
  constructor
  · rintro (rfl | ⟨names, hne, hnames, htext⟩)
    · exact normal_normalize "/"
    · rw [← toList_render hne, String.toList_inj] at htext
      exact htext ▸ normal_render hnames
  · intro h
    rw [← h.render_segments]
    by_cases hne : segments text = []
    · exact .inl (by rw [hne]; rfl)
    · exact .inr ⟨_, hne, fun _ => isName_of_mem_segments, toList_render hne⟩

theorem eq_normalize_iff :
    text = normalize path ↔ IsWritten text ∧ segments text = segments path := by
  rw [isWritten_iff]
  constructor
  · rintro rfl
    exact ⟨normal_normalize path, segments_normalize path⟩
  · rintro ⟨hnormal, hsegments⟩
    rw [← hnormal.render_segments, hsegments, normalize]

theorem Normal.covers_firstSegments (h : Normal path) (count : Nat) :
    covers (Path.firstSegments path count) path = true := by
  rw [(h.firstSegments count).covers_iff h, h.segments_firstSegments]
  exact List.take_prefix count _

/-- Normal forms and their order. A path is normalized to the only written path with the names that
are left of its pieces, so two paths have one normal form exactly if they have the same names. On
normalized paths covering is to begin with the names of the other: a partial order, in which the
paths above a path form a chain that its first names make up. -/
theorem covers_orders_by_names (p q : String) :
    segments p =
      ((p.toList.splitOn '/').filter fun piece => piece ≠ [] ∧ piece ≠ ['.']).map String.ofList ∧
    (∀ text, text = normalize p ↔ IsWritten text ∧ segments text = segments p) ∧
    normalize (normalize p) = normalize p ∧
    (normalize p = normalize q ↔ segments p = segments q) ∧
    (Normal p → Normal q → (covers p q = true ↔ segments p <+: segments q)) ∧
    (∀ a b c, Normal a → Normal b → Normal c →
      covers a a = true ∧ (covers a b = true → covers b a = true → a = b) ∧
      (covers a b = true → covers b c = true → covers a c = true) ∧
      (covers a c = true → covers b c = true → covers a b = true ∨ covers b a = true)) ∧
    (Normal p → ∀ count, Path.firstSegments p count = render ((segments p).take count) ∧
      Normal (Path.firstSegments p count) ∧ covers (Path.firstSegments p count) p = true) := by
  refine ⟨by rw [segments, pieces_eq_splitOn], fun _ => eq_normalize_iff, normal_normalize p, ?_,
    Normal.covers_iff, fun a b c ha hb hc => ?_, fun h count => ?_⟩
  · rw [(normal_normalize p).eq_iff (normal_normalize q), segments_normalize, segments_normalize]
  · exact ⟨covers_self a, ha.covers_antisymm hb, ha.covers_trans hb hc, ha.covers_or_covers hb hc⟩
  · exact ⟨h.firstSegments_eq count, h.firstSegments count, h.covers_firstSegments count⟩

/-- A name that begins with another name is not below it. -/
theorem neighbours_lie_apart :
    "/a/b" = normalize "a//./b/" ∧ covers "/a/b" "/a/bc" = false ∧
      (covers "/a" "/a/b" = true ∨ covers "/a/b" "/a" = true) ∧
      Path.firstSegments "/a/b" 1 = render ["a"] := by
  obtain ⟨_, _, _, _, hcovers, hline, hfirst⟩ := covers_orders_by_names "/a/b" "/a/bc"
  have hform := (covers_orders_by_names "a//./b/" "").2.1 "/a/b"
  refine ⟨hform.mpr ⟨isWritten_iff.mpr (by decide), by decide⟩, ?_, ?_, (hfirst (by decide) 1).1⟩
  · rw [Bool.eq_false_iff, ne_eq, hcovers (by decide) (by decide)]
    decide
  · exact (hline "/a" "/a/b" "/a/b/c" (by decide) (by decide) (by decide)).2.2.2 (by decide)
      (by decide)

/-- The directory so many steps above a path. -/
def ascend? : Nat → String → Option String
  | 0, path => some path
  | steps + 1, path => (above? path).bind (ascend? steps)

theorem Normal.ascend?_eq (h : Normal path) (steps : Nat) :
    ascend? steps path =
      if steps ≤ (segments path).length then
        some (render ((segments path).take ((segments path).length - steps)))
      else none := by
  induction steps generalizing path with
  | zero => simp [ascend?, h.render_segments]
  | succ steps ih =>
    by_cases htop : path = "/"
    · subst htop
      rfl
    · obtain ⟨dir, name, hdir, hname, rfl⟩ := h.exists_child htop
      rw [ascend?, hdir.above?_child hname, Option.bind_some, ih hdir, segments_child dir hname,
        List.length_append, List.length_singleton, Nat.add_sub_add_right,
        List.take_append_of_le_length (Nat.sub_le _ _)]
      simp only [Nat.add_le_add_iff_right]

theorem Normal.ascend?_eq_top_iff (h : Normal path) (steps : Nat) :
    ascend? steps path = some "/" ↔ steps = (segments path).length := by
  have hkept (count : Nat) : render ((segments path).take count) = "/" ↔
      (segments path).take count = [] :=
    render_inj (b := []) (fun _ => isName_of_mem_take) (by simp)
  rw [h.ascend?_eq]
  split
  · rw [Option.some.injEq, hkept, List.take_eq_nil_iff, ← List.length_eq_zero_iff]
    omega
  · refine iff_of_false (by simp) ?_
    omega

/-- Steps down and up undo each other. A child by a name is right below its directory, which is the
one above it, and is called by that name; every path but the top is the child of the directory above
it by its last name; and the top is exactly as many steps above a path as the path has names. -/
theorem child_inverts_above :
    (∀ dir name, Normal dir → IsName name →
      Normal (Path.child dir name) ∧ above? (Path.child dir name) = some dir ∧
      lastName (Path.child dir name) = name ∧ covers dir (Path.child dir name) = true ∧
      covers (Path.child dir name) dir = false) ∧
    ∀ path, Normal path →
      (path ≠ "/" → ∃ dir, above? path = some dir ∧ Normal dir ∧
        Path.child dir (lastName path) = path) ∧
      ∀ steps, ascend? steps path = some "/" ↔ steps = (segments path).length := by
  refine ⟨fun dir name hdir hname => ?_, fun path h => ⟨fun hne => ?_, h.ascend?_eq_top_iff⟩⟩
  · exact ⟨hdir.child hname, hdir.above?_child hname, lastName_child hname.1 hname.2.2,
      hdir.covers_child hname, hdir.child_not_covers hname⟩
  · obtain ⟨dir, name, hdir, hname, rfl⟩ := h.exists_child hne
    exact ⟨dir, hdir.above?_child hname, hdir, by rw [lastName_child hname.1 hname.2.2]⟩

/-- A name may have dots, blanks and any letters. -/
theorem dotted_child_inverts :
    (above? (Path.child "/a" "..é .") = some "/a" ∧ lastName (Path.child "/a" "..é .") = "..é .") ∧
      (∃ dir, above? "/a/..é ." = some dir ∧ Normal dir ∧
        Path.child dir (lastName "/a/..é .") = "/a/..é .") ∧
      ascend? 2 "/a/..é ." = some "/" := by
  obtain ⟨hdown, hup⟩ := child_inverts_above
  obtain ⟨_, habove, hlast, _⟩ := hdown "/a" "..é ." (by decide) (by decide)
  obtain ⟨hchild, htop⟩ := hup "/a/..é ." (by decide)
  exact ⟨⟨habove, hlast⟩, hchild (by decide), (htop 2).mpr (by decide)⟩

end LazyTree.Path
