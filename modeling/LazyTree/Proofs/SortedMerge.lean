import LazyTree.Proofs.Alignment
import LazyTree.Proofs.Siblings
import Mathlib.Data.List.Chain

/-!
How much a merge of sorted lists keeps. Names that follow paths make the order of siblings a
transitive one, and then a merge keeps of each path as many children as it can: as many as there
are, or as many as are listed.
-/
namespace LazyTree
variable {a b : Handle} {handles incoming : List Handle} {path : String}

/-- Handles of one path have one name. -/
def NamesFollowPaths (handles : List Handle) : Prop :=
  ∀ a ∈ handles, ∀ b ∈ handles, a.path = b.path → a.name = b.name

instance (handles : List Handle) : Decidable (NamesFollowPaths handles) :=
  inferInstanceAs (Decidable (∀ a ∈ handles, ∀ b ∈ handles, a.path = b.path → a.name = b.name))

def occurrences (path : String) (handles : List Handle) : Nat :=
  (handles.map Handle.path).count path

theorem occurrences_pos_iff : 0 < occurrences path handles ↔ ∃ a ∈ handles, a.path = path :=
  List.count_pos_iff.trans List.mem_map

theorem occurrences_cons (a : Handle) (handles : List Handle) (path : String) :
    occurrences path (a :: handles) =
      occurrences path handles + if a.path = path then 1 else 0 := by
  simp [occurrences, List.count_cons]

theorem occurrences_append (handles incoming : List Handle) (path : String) :
    occurrences path (handles ++ incoming) =
      occurrences path handles + occurrences path incoming := by
  simp [occurrences]

theorem occurrences_perm (h : handles.Perm incoming) (path : String) :
    occurrences path handles = occurrences path incoming :=
  (h.map Handle.path).count_eq path

namespace NamesFollowPaths

theorem of_named (h : ∀ a ∈ handles, a.Named) : NamesFollowPaths handles := by
  intro a ha b hb hpath
  rw [h a ha, h b hb, hpath]

theorem of_subset (h : NamesFollowPaths incoming) (hsub : ∀ a ∈ handles, a ∈ incoming) :
    NamesFollowPaths handles :=
  fun a ha b hb => h a (hsub a ha) b (hsub b hb)

theorem of_sublist (h : NamesFollowPaths incoming) (hsub : handles.Sublist incoming) :
    NamesFollowPaths handles :=
  h.of_subset fun _ ha => hsub.subset ha

theorem pairwise_of_isChain (h : NamesFollowPaths handles)
    (hsorted : handles.IsChain fun a b => siblingOrder a b ≠ .gt) :
    handles.Pairwise fun a b => siblingOrder a b ≠ .gt := by
  have hlex : handles.IsChain fun a b => (nameThenPath a b).isLE := by
    refine hsorted.imp_of_mem_imp fun a b ha hb hle => ?_
    rwa [← siblingOrder_of_agrees (h a ha b hb), ← Ordering.ne_gt_iff_isLE]
  have : Trans (fun a b => ((nameThenPath a b).isLE : Prop))
      (fun a b => (nameThenPath a b).isLE) (fun a b => (nameThenPath a b).isLE) :=
    ⟨Std.TransCmp.isLE_trans⟩
  refine hlex.pairwise.imp_of_mem fun {a b} ha hb hle => ?_
  rwa [siblingOrder_of_agrees (h a ha b hb), ne_eq, Ordering.ne_gt_iff_isLE]

theorem occurrences_of_lt (h : NamesFollowPaths (a :: b :: handles))
    (hsorted : (b :: handles).Pairwise fun a b => siblingOrder a b ≠ .gt)
    (hlt : siblingOrder a b = .lt) : occurrences a.path (b :: handles) = 0 := by
  by_contra hmem
  obtain ⟨c, hc, hpath⟩ := occurrences_pos_iff.mp (Nat.pos_of_ne_zero hmem)
  have ha : a ∈ a :: b :: handles := List.mem_cons_self
  have hb : b ∈ a :: b :: handles := List.mem_cons_of_mem a List.mem_cons_self
  have hc' : c ∈ a :: b :: handles := List.mem_cons_of_mem a hc
  have hle : siblingOrder b c ≠ .gt := by
    rcases List.mem_cons.mp hc with rfl | hrest
    · simp [siblingOrder_eq_iff.mpr rfl]
    · exact (List.pairwise_cons.mp hsorted).1 c hrest
  rw [siblingOrder_of_agrees (h a ha b hb)] at hlt
  rw [siblingOrder_of_agrees (h b hb c hc'), ne_eq, Ordering.ne_gt_iff_isLE] at hle
  have hbefore := Std.TransCmp.lt_of_lt_of_isLE hlt hle
  rw [← siblingOrder_of_agrees (h a ha c hc'), siblingOrder_eq_iff.mpr hpath.symm] at hbefore
  cases hbefore

end NamesFollowPaths

namespace Fate

def keeps (path : String) : Fate → Bool
  | kept _ listed => listed.path = path
  | _ => false

/-- Of each path as many children are kept as there are, or as many as are listed. -/
theorem countP_keeps_align {handleOf : NodeId → Option Handle} {children : List NodeId}
    (hlive : ∀ child ∈ children, ∃ handle, handleOf child = some handle)
    (hnames : NamesFollowPaths (children.filterMap handleOf ++ incoming))
    (hchildren : (children.filterMap handleOf).Pairwise fun a b => siblingOrder a b ≠ .gt)
    (hincoming : incoming.Pairwise fun a b => siblingOrder a b ≠ .gt) (path : String) :
    (align handleOf children incoming).countP (keeps path) =
      min (occurrences path (children.filterMap handleOf)) (occurrences path incoming) := by
  fun_induction align handleOf children incoming with
  | case1 => rfl
  | case2 listed incoming ih =>
    have hrest := ih hlive (hnames.of_sublist (List.sublist_cons_self ..)) hchildren
      (List.pairwise_cons.mp hincoming).2
    rw [List.countP_cons_of_neg (by simp [keeps]), hrest]
    simp [occurrences]
  | case3 child children ih =>
    obtain ⟨handle, hchild⟩ := hlive child List.mem_cons_self
    rw [List.filterMap_cons_some hchild] at hnames hchildren
    have hrest := ih (fun c hc => hlive c (List.mem_cons_of_mem child hc))
      (hnames.of_sublist (List.sublist_cons_self ..)) (List.pairwise_cons.mp hchildren).2 hincoming
    rw [List.countP_cons_of_neg (by simp [keeps]), hrest]
    simp [occurrences]
  | case4 child children listed incoming hp ih =>
    obtain ⟨handle, hchild⟩ := hlive child List.mem_cons_self
    rw [hchild, placement] at hp
    have hrest := ih hlive (hnames.of_sublist ((List.sublist_cons_self ..).append_left _))
      hchildren (List.pairwise_cons.mp hincoming).2
    rw [List.countP_cons_of_neg (by simp [keeps]), hrest, occurrences_cons listed]
    by_cases hpath : listed.path = path
    · -- The listed directory comes before every child, so none has its path.
      rw [List.filterMap_cons_some hchild] at hnames hchildren ⊢
      have hagrees : NamesFollowPaths (listed :: handle :: children.filterMap handleOf) :=
        hnames.of_subset (by grind)
      rw [← hpath, hagrees.occurrences_of_lt hchildren hp, Nat.zero_min, Nat.zero_min]
    · rw [if_neg hpath, Nat.add_zero]
  | case5 child children listed incoming hp ih =>
    obtain ⟨handle, hchild⟩ := hlive child List.mem_cons_self
    rw [hchild, placement, siblingOrder_eq_iff] at hp
    rw [List.filterMap_cons_some hchild] at hnames hchildren ⊢
    have hrest := ih (fun c hc => hlive c (List.mem_cons_of_mem child hc))
      (hnames.of_sublist ((List.sublist_cons_self ..).append (List.sublist_cons_self ..)))
      (List.pairwise_cons.mp hchildren).2 (List.pairwise_cons.mp hincoming).2
    rw [List.countP_cons, hrest, occurrences_cons, occurrences_cons, ← hp, Nat.add_min_add_right]
    simp [keeps]
  | case6 child children listed incoming hp ih =>
    obtain ⟨handle, hchild⟩ := hlive child List.mem_cons_self
    rw [hchild, placement, ← Ordering.swap_eq_lt, siblingOrder_swap] at hp
    rw [List.filterMap_cons_some hchild] at hnames hchildren ⊢
    have hrest := ih (fun c hc => hlive c (List.mem_cons_of_mem child hc))
      (hnames.of_sublist (List.sublist_cons_self ..)) (List.pairwise_cons.mp hchildren).2 hincoming
    rw [List.countP_cons_of_neg (by simp [keeps]), hrest, occurrences_cons handle]
    by_cases hpath : handle.path = path
    · -- The child comes before everything listed, so nothing listed has its path.
      have hagrees : NamesFollowPaths (handle :: listed :: incoming) :=
        hnames.of_subset (by grind)
      rw [← hpath, hagrees.occurrences_of_lt hincoming hp, Nat.min_zero, Nat.min_zero]
    · rw [if_neg hpath, Nat.add_zero]

theorem kept_of_common {handleOf : NodeId → Option Handle} {children : List NodeId}
    (hlive : ∀ child ∈ children, ∃ handle, handleOf child = some handle)
    (hnames : NamesFollowPaths (children.filterMap handleOf ++ incoming))
    (hchildren : (children.filterMap handleOf).Pairwise fun a b => siblingOrder a b ≠ .gt)
    (hincoming : incoming.Pairwise fun a b => siblingOrder a b ≠ .gt)
    {child : NodeId} {handle listed : Handle} (hc : child ∈ children)
    (hhandle : handleOf child = some handle) (hl : listed ∈ incoming)
    (hpath : listed.path = handle.path) :
    ∃ c l, kept c l ∈ align handleOf children incoming ∧ l.path = handle.path := by
  have hchild : 0 < occurrences handle.path (children.filterMap handleOf) :=
    occurrences_pos_iff.mpr ⟨handle, List.mem_filterMap.mpr ⟨child, hc, hhandle⟩, rfl⟩
  have hlisted : 0 < occurrences handle.path incoming :=
    occurrences_pos_iff.mpr ⟨listed, hl, hpath⟩
  have hcount : 0 < (align handleOf children incoming).countP (keeps handle.path) := by
    rw [countP_keeps_align hlive hnames hchildren hincoming]
    exact Nat.lt_min.mpr ⟨hchild, hlisted⟩
  obtain ⟨fate, hfate, hkeeps⟩ := List.countP_pos_iff.mp hcount
  cases fate with
  | added l => simp [keeps] at hkeeps
  | kept c l => exact ⟨c, l, hfate, by simpa [keeps] using hkeeps⟩
  | dropped c => simp [keeps] at hkeeps

end Fate

end LazyTree
