import LazyTree.SiblingOrder

/-!
The order of siblings. Two handles of one path compare as equal whatever their names, so the order
is transitive only among handles of which none stands, by lower-cased name and path, between two
others of one path. Where names follow from paths there is no such handle, and the order is the
lexicographic one. Sorting sorts what the order ranks.
-/
namespace LazyTree
variable {a b c handle : Handle} {handles others : List Handle}

theorem siblingOrder_eq_iff : siblingOrder a b = .eq ↔ a.path = b.path := by
  unfold siblingOrder
  by_cases h : a.path = b.path
  · simp [h]
  · rw [if_neg h, Ordering.then_eq_eq]
    exact ⟨fun heq => Std.LawfulEqOrd.eq_of_compare heq.2, fun heq => absurd heq h⟩

theorem siblingOrder_swap (a b : Handle) : (siblingOrder a b).swap = siblingOrder b a := by
  unfold siblingOrder
  by_cases h : a.path = b.path
  · simp [h]
  · rw [if_neg h, if_neg (Ne.symm h), Ordering.swap_then, ← Std.OrientedOrd.eq_swap,
      ← Std.OrientedOrd.eq_swap]

def Handle.Named (handle : Handle) : Prop := handle.name = Path.lastName handle.path

/-- Lower-cased name first, then path. -/
def nameThenPath : Handle → Handle → Ordering :=
  compareLex (compareOn fun handle => Text.lowercase handle.name) (compareOn Handle.path)

theorem siblingOrder_of_agrees (h : a.path = b.path → a.name = b.name) :
    siblingOrder a b = nameThenPath a b := by
  unfold siblingOrder
  by_cases hpath : a.path = b.path
  · rw [if_pos hpath, nameThenPath, compareLex, compareOn, compareOn, hpath, h hpath]
    simp
  · rw [if_neg hpath]
    rfl

theorem siblingOrder_of_named (ha : a.Named) (hb : b.Named) :
    siblingOrder a b = nameThenPath a b :=
  siblingOrder_of_agrees fun hpath => by rw [ha, hb, hpath]

instance : Std.TransCmp nameThenPath :=
  inferInstanceAs (Std.TransCmp (compareLex _ _))

theorem siblingOrder_of_path_ne (h : a.path ≠ b.path) : siblingOrder a b = nameThenPath a b :=
  siblingOrder_of_agrees fun hpath => absurd hpath h

/-- `c` stands, by lower-cased name and path, between two handles of one other path. -/
structure Straddled (a b c : Handle) : Prop where
  one_path : a.path = b.path
  other_path : c.path ≠ a.path
  after : nameThenPath a c = .lt
  before : nameThenPath c b = .lt

/-- Among these handles the order of siblings is transitive. -/
def Rankable (handles : List Handle) : Prop :=
  ∀ a ∈ handles, ∀ b ∈ handles, ∀ c ∈ handles,
    siblingOrder a b ≠ .gt → siblingOrder b c ≠ .gt → siblingOrder a c ≠ .gt

theorem Rankable.of_subset (h : Rankable handles) (hsub : ∀ a ∈ others, a ∈ handles) :
    Rankable others :=
  fun a ha b hb c hc => h a (hsub a ha) b (hsub b hb) c (hsub c hc)

theorem Straddled.breaks (h : Straddled a b c) :
    siblingOrder c b ≠ .gt ∧ siblingOrder b a ≠ .gt ∧ siblingOrder c a = .gt := by
  have hcb : siblingOrder c b = .lt :=
    (siblingOrder_of_path_ne (h.one_path ▸ h.other_path)).trans h.before
  have hac : siblingOrder a c = .lt := (siblingOrder_of_path_ne h.other_path.symm).trans h.after
  refine ⟨by simp [hcb], by simp [siblingOrder_eq_iff.mpr h.one_path.symm], ?_⟩
  rw [← siblingOrder_swap, hac]
  rfl

/-- Wherever the order is not transitive, a handle stands between two of one path. -/
theorem straddled_of_gt (hab : siblingOrder a b ≠ .gt) (hbc : siblingOrder b c ≠ .gt)
    (hac : siblingOrder a c = .gt) : Straddled b a c ∨ Straddled c b a := by
  have hne : a.path ≠ c.path := fun hpath => by simp [siblingOrder_eq_iff.mpr hpath] at hac
  have hca : nameThenPath c a = .lt := by
    rw [← Std.OrientedCmp.gt_iff_lt, ← siblingOrder_of_path_ne hne]
    exact hac
  have hlt {x y : Handle} (hpath : x.path ≠ y.path) (hle : siblingOrder x y ≠ .gt) :
      nameThenPath x y = .lt := by
    rw [← siblingOrder_of_path_ne hpath]
    exact (Ordering.isLE_iff_eq_lt_or_eq_eq.mp (Ordering.ne_gt_iff_isLE.mp hle)).resolve_right
      fun heq => hpath (siblingOrder_eq_iff.mp heq)
  by_cases hpab : a.path = b.path
  · exact .inl ⟨hpab.symm, fun hpath => hne (hpab.trans hpath.symm),
      hlt (fun hpath => hne (hpab.trans hpath)) hbc, hca⟩
  · by_cases hpbc : b.path = c.path
    · exact .inr ⟨hpbc.symm, hne, hca, hlt hpab hab⟩
    · have htrans : nameThenPath a c = .lt := Std.TransCmp.lt_trans (hlt hpab hab) (hlt hpbc hbc)
      exact absurd hca (Std.OrientedCmp.not_lt_of_lt htrans)

theorem rankable_iff : Rankable handles ↔
    ∀ a ∈ handles, ∀ b ∈ handles, ∀ c ∈ handles, ¬ Straddled a b c := by
  constructor
  · intro h a ha b hb c hc hstraddled
    obtain ⟨hcb, hba, hca⟩ := hstraddled.breaks
    exact h c hc b hb a ha hcb hba hca
  · intro h a ha b hb c hc hab hbc hac
    rcases straddled_of_gt hab hbc hac with hstraddled | hstraddled
    · exact h b hb a ha c hc hstraddled
    · exact h c hc b hb a ha hstraddled

theorem not_straddled_of_agrees (h : Text.lowercase a.name = Text.lowercase b.name) :
    ¬ Straddled a b c := by
  intro hstraddled
  have hsame : nameThenPath a c = nameThenPath b c := by
    simp only [nameThenPath, compareLex, compareOn, h, hstraddled.one_path]
  exact Std.OrientedCmp.not_lt_of_lt (hsame.symm.trans hstraddled.after) hstraddled.before

theorem rankable_of_agrees (h : ∀ a ∈ handles, ∀ b ∈ handles, a.path = b.path →
    Text.lowercase a.name = Text.lowercase b.name) : Rankable handles :=
  rankable_iff.mpr fun a ha b hb _ _ hstraddled =>
    not_straddled_of_agrees (h a ha b hb hstraddled.one_path) hstraddled

theorem rankable_of_named (h : ∀ a ∈ handles, a.Named) : Rankable handles :=
  rankable_of_agrees fun a ha b hb hpath => by rw [h a ha, h b hb, hpath]

theorem compare_append_separator (text : String) : compare text (text ++ "/") = .lt := by
  refine compareOfLessAndEq_eq_lt.mpr (String.lt_iff.mpr ?_)
  have hlonger := @List.append_left_lt _ _ text.toList [] ['/'] (by simp)
  simpa using hlonger

theorem exists_straddled (hpath : a.path = b.path)
    (hlt : compare (Text.lowercase a.name) (Text.lowercase b.name) = .lt) :
    ∃ c, Straddled a b c := by
  have hlonger := compare_append_separator a.path
  refine ⟨{ a with path := a.path ++ "/" }, hpath, fun heq => ?_, ?_, ?_⟩
  · dsimp only at heq
    simp [heq] at hlonger
  · simp [nameThenPath, compareLex, compareOn, hlonger]
  · simp [nameThenPath, compareLex, compareOn, hlt]

/-- Two handles of one path can be ranked with every third one exactly if they agree in their
lower-cased names. -/
theorem rankable_with_any_iff (hpath : a.path = b.path) :
    (∀ c, Rankable [a, b, c]) ↔ Text.lowercase a.name = Text.lowercase b.name := by
  constructor
  · intro h
    have hnot {c : Handle} : ¬ Straddled a b c ∧ ¬ Straddled b a c :=
      ⟨rankable_iff.mp (h c) a (by simp) b (by simp) c (by simp),
        rankable_iff.mp (h c) b (by simp) a (by simp) c (by simp)⟩
    cases hcompare : compare (Text.lowercase a.name) (Text.lowercase b.name) with
    | lt =>
      obtain ⟨c, hc⟩ := exists_straddled hpath hcompare
      exact absurd hc hnot.1
    | eq => exact Std.LawfulEqOrd.eq_of_compare hcompare
    | gt =>
      obtain ⟨c, hc⟩ := exists_straddled hpath.symm (Std.OrientedCmp.gt_iff_lt.mp hcompare)
      exact absurd hc hnot.2
  · intro h c
    refine rankable_iff.mpr fun x hx y hy z hz hstraddled => ?_
    simp only [List.mem_cons, List.not_mem_nil, or_false] at hx hy hz
    by_cases hc : c.path = a.path
    · have hone : ∀ w, w = a ∨ w = b ∨ w = c → w.path = a.path := by
        rintro w (rfl | rfl | rfl)
        · rfl
        · exact hpath.symm
        · exact hc
      exact hstraddled.other_path ((hone z hz).trans (hone x hx).symm)
    · refine not_straddled_of_agrees ?_ hstraddled
      have hxy := hstraddled.one_path
      rcases hx with rfl | rfl | rfl <;> rcases hy with rfl | rfl | rfl <;> simp_all

theorem perm_insertReversed (handle : Handle) (handles : List Handle) :
    (insertReversed handle handles).Perm (handle :: handles) := by
  induction handles with
  | nil => exact .refl _
  | cons h rest ih =>
    unfold insertReversed
    split
    · exact (ih.cons h).trans (.swap handle h rest)
    · exact .refl _

theorem perm_foldl_insertReversed (handles sorted : List Handle) :
    (handles.foldl (fun sorted h => insertReversed h sorted) sorted).Perm (handles ++ sorted) := by
  induction handles generalizing sorted with
  | nil => exact .refl _
  | cons h rest ih =>
    have hinsert := (perm_insertReversed h sorted).append_left rest
    exact ((ih _).trans hinsert).trans List.perm_middle

theorem perm_sortSiblings (handles : List Handle) : (sortSiblings handles).Perm handles := by
  have hfold := perm_foldl_insertReversed handles []
  rw [List.append_nil] at hfold
  exact (List.reverse_perm _).trans hfold

theorem mem_sortSiblings : handle ∈ sortSiblings handles ↔ handle ∈ handles :=
  (perm_sortSiblings handles).mem_iff

theorem sortSiblings_eq_nil_iff : sortSiblings handles = [] ↔ handles = [] := by
  rw [← List.length_eq_zero_iff, (perm_sortSiblings handles).length_eq, List.length_eq_zero_iff]

theorem pairwise_insertReversed (hsorted : handles.Pairwise fun a b => siblingOrder b a ≠ .gt)
    (hrank : Rankable (handle :: handles)) :
    (insertReversed handle handles).Pairwise fun a b => siblingOrder b a ≠ .gt := by
  induction handles with
  | nil => simp [insertReversed]
  | cons h rest ih =>
    obtain ⟨hfirst, hrest⟩ := List.pairwise_cons.mp hsorted
    unfold insertReversed
    split
    · rename_i hlt
      refine List.pairwise_cons.mpr ⟨fun x hx => ?_, ih hrest (hrank.of_subset (by grind))⟩
      rcases List.mem_cons.mp ((perm_insertReversed handle rest).mem_iff.mp hx) with rfl | hx
      · simp [hlt]
      · exact hfirst x hx
    · rename_i hnlt
      have hle : siblingOrder h handle ≠ .gt := by
        rwa [← siblingOrder_swap, ne_eq, Ordering.swap_eq_gt]
      refine List.pairwise_cons.mpr ⟨fun x hx => ?_, hsorted⟩
      rcases List.mem_cons.mp hx with rfl | hx
      · exact hle
      · exact hrank x (by simp [hx]) h (by simp) handle (by simp) (hfirst x hx) hle

theorem pairwise_foldl_insertReversed {sorted : List Handle}
    (hsorted : sorted.Pairwise fun a b => siblingOrder b a ≠ .gt)
    (hrank : Rankable (handles ++ sorted)) :
    (handles.foldl (fun sorted h => insertReversed h sorted) sorted).Pairwise
      fun a b => siblingOrder b a ≠ .gt := by
  induction handles generalizing sorted with
  | nil => exact hsorted
  | cons h rest ih =>
    refine ih (pairwise_insertReversed hsorted (hrank.of_subset (by grind))) ?_
    refine hrank.of_subset fun x hx => ?_
    simp only [List.mem_append, (perm_insertReversed h sorted).mem_iff, List.mem_cons] at hx
    simpa [or_left_comm] using hx

theorem pairwise_sortSiblings (hrank : Rankable handles) :
    (sortSiblings handles).Pairwise fun a b => siblingOrder a b ≠ .gt := by
  rw [sortSiblings, List.pairwise_reverse]
  exact pairwise_foldl_insertReversed .nil (by rwa [List.append_nil])

/-- The order of siblings turned round is the order of the two handles exchanged, and it calls equal
what has one path. Two handles of one path can be ranked with any third exactly if their lower-cased
names agree. The order is transitive among handles exactly if none stands between two others of one
path, and what can be ranked is sorted by sorting. -/
theorem siblingOrder_ranks_iff (a b : Handle) (handles : List Handle) :
    siblingOrder b a = (siblingOrder a b).swap ∧
    (siblingOrder a b = .eq ↔ a.path = b.path) ∧
    (a.path = b.path → ((∀ c, Rankable [a, b, c]) ↔
      Text.lowercase a.name = Text.lowercase b.name)) ∧
    (Rankable handles ↔
      ∀ a ∈ handles, ∀ b ∈ handles, ∀ c ∈ handles, ¬ Straddled a b c) ∧
    (Rankable handles →
      (sortSiblings handles).Pairwise fun a b => siblingOrder a b ≠ .gt) :=
  ⟨(siblingOrder_swap a b).symm, siblingOrder_eq_iff, rankable_with_any_iff, rankable_iff,
    pairwise_sortSiblings⟩

/-- Two names for one path, and a directory between them: the order goes round, and sorting leaves
the last before the first. -/
theorem two_names_go_round :
    let first : Handle := ⟨"/p", "a", none, .real⟩
    let second : Handle := ⟨"/q", "m", none, .real⟩
    let third : Handle := ⟨"/p", "z", none, .real⟩
    siblingOrder second third ≠ .gt ∧ siblingOrder third first ≠ .gt ∧
      siblingOrder second first = .gt ∧
      sortSiblings [third, second, first] = [second, third, first] := by
  decide +kernel

end LazyTree
