import LazyTree.Proofs.MergeOutcome
import LazyTree.Proofs.SortedMerge
import Mathlib.Data.List.Perm.Subperm

/-!
A merge changes as little as it can. Whatever way the children of a node are brought in line with a
listing, each path is listed for children that stay and for new ones; in sorted lists the merge lets
as many stay as any other way.
-/
namespace LazyTree

namespace Arena
variable {before after other : Arena} {parent child : NodeId} {node : Node}
variable {incoming : List Handle} {recursive keepOpen : Bool} {outcome : MergeOutcome}
variable {merged : Merged} {path : String}

def stayers (before after : Arena) (parent : NodeId) : List NodeId :=
  (before.childrenOf parent).filter (· ∈ after.childrenOf parent)

def leavers (before after : Arena) (parent : NodeId) : List NodeId :=
  (before.childrenOf parent).filter (· ∉ after.childrenOf parent)

def newcomers (before after : Arena) (parent : NodeId) : List NodeId :=
  (after.childrenOf parent).filter (· ∉ before.childrenOf parent)

def handlesOf (arena : Arena) (ids : List NodeId) : List Handle := ids.filterMap arena.handle?

/-- The children of `parent` have been brought in line with a listing, each child that stays for a
directory of its own path. -/
structure InLine (before after : Arena) (parent : NodeId) (incoming : List Handle) : Prop where
  once : (after.childrenOf parent).Nodup
  handles : (after.childrenOf parent).map after.handle? = incoming.map some
  same_path : ∀ child ∈ before.childrenOf parent, child ∈ after.childrenOf parent →
    (after.handle? child).map Handle.path = (before.handle? child).map Handle.path

/-- The merge of the listing `incoming` into `parent` keeps of each path as many children as it can
and drops none while it adds another of the same path; no other way drops or adds fewer. -/
structure LeastChurn (before after : Arena) (parent : NodeId) (incoming : List Handle)
    (outcome : MergeOutcome) : Prop where
  inLine : before.InLine after parent incoming
  kept : ∀ path, occurrences path (before.handlesOf (before.stayers after parent)) =
    min (occurrences path (before.handlesOf (before.childrenOf parent)))
      (occurrences path incoming)
  stays : ∀ child ∈ before.childrenOf parent, ∀ handle, before.handle? child = some handle →
    occurrences handle.path (before.handlesOf (before.childrenOf parent)) ≤
      occurrences handle.path incoming → child ∈ after.childrenOf parent
  replaces_none : ∀ child ∈ before.leavers after parent, ∀ new ∈ before.newcomers after parent,
    (after.handle? new).map Handle.path ≠ (before.handle? child).map Handle.path
  inserted : outcome.inserted = (before.newcomers after parent).length
  removed : outcome.removed = (before.leavers after parent).length
  least : ∀ other, before.InLine other parent incoming →
    outcome.inserted ≤ (before.newcomers other parent).length ∧
    outcome.removed ≤ (before.leavers other parent).length

theorem stayers_sublist (before after : Arena) (parent : NodeId) :
    (before.stayers after parent).Sublist (before.childrenOf parent) :=
  List.filter_sublist

theorem length_stayers_add_leavers (before after : Arena) (parent : NodeId) :
    (before.stayers after parent).length + (before.leavers after parent).length =
      (before.childrenOf parent).length := by
  have hsplit := List.length_eq_length_filter_add
    (fun id => decide (id ∈ after.childrenOf parent)) (l := before.childrenOf parent)
  simpa [stayers, leavers] using hsplit.symm

theorem map_path_handlesOf (arena : Arena) (ids : List NodeId) :
    (arena.handlesOf ids).map Handle.path =
      ids.filterMap fun id => (arena.handle? id).map Handle.path :=
  List.map_filterMap

theorem occurrences_handlesOf (arena : Arena) (ids : List NodeId) (path : String) :
    occurrences path (arena.handlesOf ids) =
      ids.countP fun id => (arena.handle? id).map Handle.path == some path := by
  rw [occurrences, map_path_handlesOf, List.count_filterMap]

theorem stays_of_occurrences
    (hsame : occurrences path (before.handlesOf (before.stayers after parent)) =
      occurrences path (before.handlesOf (before.childrenOf parent)))
    (hc : child ∈ before.childrenOf parent)
    (hpath : (before.handle? child).map Handle.path = some path) :
    child ∈ after.childrenOf parent := by
  rw [occurrences_handlesOf, occurrences_handlesOf, List.countP_eq_length_filter,
    List.countP_eq_length_filter] at hsame
  have heq := ((stayers_sublist before after parent).filter _).eq_of_length hsame
  have hmem : child ∈ (before.childrenOf parent).filter
      fun id => (before.handle? id).map Handle.path == some path :=
    List.mem_filter.mpr ⟨hc, beq_iff_eq.mpr hpath⟩
  rw [← heq] at hmem
  have hstays := (List.mem_filter.mp hmem).1
  exact of_decide_eq_true (List.mem_filter.mp hstays).2

namespace InLine

theorem perm_stayers (h : before.InLine after parent incoming) (hb : before.Forest) :
    (before.stayers after parent).Perm
      ((after.childrenOf parent).filter (· ∈ before.childrenOf parent)) := by
  refine (List.perm_ext_iff_of_nodup ((hb.once parent).filter _) (h.once.filter _)).mpr ?_
  intro id
  simp only [List.mem_filter, decide_eq_true_eq]
  exact and_comm

theorem perm_children (h : before.InLine after parent incoming) (hb : before.Forest) :
    (before.stayers after parent ++ before.newcomers after parent).Perm
      (after.childrenOf parent) := by
  have hsplit := List.filter_append_perm (fun id => decide (id ∈ before.childrenOf parent))
    (after.childrenOf parent)
  simp only [← decide_not] at hsplit
  exact ((h.perm_stayers hb).append_right _).trans hsplit

theorem handlesOf_children (h : before.InLine after parent incoming) :
    after.handlesOf (after.childrenOf parent) = incoming := by
  have hnow := congrArg (List.filterMap id) h.handles
  simpa [handlesOf, List.filterMap_map] using hnow

theorem length_eq (h : before.InLine after parent incoming) (hb : before.Forest) :
    (before.stayers after parent).length + (before.newcomers after parent).length =
      incoming.length := by
  have hnow := congrArg List.length h.handles
  rw [List.length_map, List.length_map] at hnow
  rw [← List.length_append, (h.perm_children hb).length_eq, hnow]

theorem occurrences_eq (h : before.InLine after parent incoming) (hb : before.Forest)
    (path : String) :
    occurrences path (before.handlesOf (before.stayers after parent)) +
      occurrences path (after.handlesOf (before.newcomers after parent)) =
      occurrences path incoming := by
  have hkept : (before.handlesOf (before.stayers after parent)).map Handle.path =
      (after.handlesOf (before.stayers after parent)).map Handle.path := by
    rw [map_path_handlesOf, map_path_handlesOf]
    refine List.filterMap_congr fun child hc => ?_
    obtain ⟨hc, hstays⟩ := List.mem_filter.mp hc
    exact (h.same_path child hc (of_decide_eq_true hstays)).symm
  have hperm := (h.perm_children hb).filterMap after.handle?
  rw [List.filterMap_append] at hperm
  calc occurrences path (before.handlesOf (before.stayers after parent)) +
        occurrences path (after.handlesOf (before.newcomers after parent))
      = occurrences path (after.handlesOf (before.stayers after parent) ++
          after.handlesOf (before.newcomers after parent)) := by
        rw [occurrences_append, occurrences, hkept]
        rfl
    _ = occurrences path (after.handlesOf (after.childrenOf parent)) :=
        occurrences_perm hperm path
    _ = occurrences path incoming := by rw [h.handlesOf_children]

theorem path_ne (h : before.InLine after parent incoming) (hb : before.Forest)
    (hkept : ∀ path, occurrences path (before.handlesOf (before.stayers after parent)) =
      min (occurrences path (before.handlesOf (before.childrenOf parent)))
        (occurrences path incoming))
    {new : NodeId} (hleaves : child ∈ before.leavers after parent)
    (hnew : new ∈ before.newcomers after parent) :
    (after.handle? new).map Handle.path ≠ (before.handle? child).map Handle.path := by
  intro hpath
  obtain ⟨hc, hgone⟩ := List.mem_filter.mp hleaves
  obtain ⟨was, hwas, _⟩ := hb.owned hc
  have hchild : (before.handle? child).map Handle.path = some was.handle.path := by
    rw [handle?, hwas]
    rfl
  rw [hchild] at hpath
  have hcomes : 0 < occurrences was.handle.path
      (after.handlesOf (before.newcomers after parent)) := by
    rw [occurrences_handlesOf]
    exact List.countP_pos_iff.mpr ⟨new, hnew, beq_iff_eq.mpr hpath⟩
  have hsplit := h.occurrences_eq hb was.handle.path
  have hmin := hkept was.handle.path
  have hsame : occurrences was.handle.path (before.handlesOf (before.stayers after parent)) =
      occurrences was.handle.path (before.handlesOf (before.childrenOf parent)) := by
    omega
  exact of_decide_eq_true hgone (stays_of_occurrences hsame hc hchild)

end InLine

theorem length_handlesOf (hb : before.Forest) {ids : List NodeId}
    (hids : ids ⊆ before.childrenOf parent) : (before.handlesOf ids).length = ids.length := by
  refine List.filterMap_length_eq_length.mpr fun id hid => ?_
  obtain ⟨node, hlive, _⟩ := hb.owned (hids hid)
  rw [handle?, hlive]
  rfl

/-- The way that keeps of each path as many children as possible keeps no fewer than another. -/
theorem length_stayers_le (hb : before.Forest) (h : before.InLine other parent incoming)
    (hkept : ∀ path, occurrences path (before.handlesOf (before.stayers after parent)) =
      min (occurrences path (before.handlesOf (before.childrenOf parent)))
        (occurrences path incoming)) :
    (before.stayers other parent).length ≤ (before.stayers after parent).length := by
  have hpaths : ((before.handlesOf (before.stayers other parent)).map Handle.path).Subperm
      ((before.handlesOf (before.stayers after parent)).map Handle.path) := by
    refine List.subperm_iff_count.mpr fun path => ?_
    refine le_of_le_of_eq (Nat.le_min.mpr ⟨?_, ?_⟩) (hkept path).symm
    · have hsub := (stayers_sublist before other parent).filterMap before.handle?
      exact (hsub.map Handle.path).count_le path
    · exact Nat.le.intro (h.occurrences_eq hb path)
  have hlength := hpaths.length_le
  rwa [List.length_map, List.length_map, length_handlesOf hb (stayers_sublist ..).subset,
    length_handlesOf hb (stayers_sublist ..).subset] at hlength

section
variable (h : before.Forest) (hp : before.get? parent = some node)
variable (hcarried : Carried (before.emptied parent) parent recursive []
  (Fate.align before.handle? node.children incoming) merged)
variable (hm : merged = carryOut parent recursive (before.emptied parent)
  (Fate.align before.handle? node.children incoming))

include h hp hcarried hm in
theorem Carried.occurrences_stayers (keepOpen : Bool) (path : String) :
    occurrences path (before.handlesOf (before.stayers (merged.rejoined parent keepOpen) parent)) =
      (Fate.align before.handle? node.children incoming).countP (Fate.keeps path) := by
  have hnow : (merged.rejoined parent keepOpen).childrenOf parent = merged.children := by
    rw [childrenOf_of_live (hcarried.get?_rejoined_self hp keepOpen)]
    rfl
  rw [occurrences_handlesOf, stayers, childrenOf_of_live hp, hnow, List.countP_filter]
  conv_lhs => rw [← Fate.filterMap_child?_align before.handle? node.children incoming]
  rw [List.countP_filterMap]
  refine List.countP_congr fun fate hfate => ?_
  cases fate with
  | added listed => simp [Fate.child?, Fate.keeps]
  | kept child listed =>
    have hstays : child ∈ merged.children := hm ▸ mem_children_carryOut hfate
    have hc : child ∈ before.childrenOf parent := childrenOf_of_live hp ▸ Fate.mem_of_kept hfate
    obtain ⟨was, hlive, _⟩ := h.owned hc
    have hhandle : before.handle? child = some was.handle := congrArg (Option.map Node.handle) hlive
    have hstands := Fate.placement_of_kept hfate
    rw [hhandle, Fate.placement, siblingOrder_eq_iff] at hstands
    simp [Fate.child?, Fate.keeps, hstays, hhandle, hstands]
  | dropped child =>
    have hc : child ∈ node.children :=
      Fate.filterMap_child?_align before.handle? node.children incoming ▸ mem_of_dropped hfate []
    obtain ⟨_, hlive, _⟩ := (h.emptied hp).owned hc
    have hgone := ((hcarried.dropped_iff hm ⟨_, hlive⟩).mp hfate).2
    simp [Fate.child?, Fate.keeps, hgone]

include h hp hcarried hm in
theorem Carried.inLine (keepOpen : Bool) :
    before.InLine (merged.rejoined parent keepOpen) parent incoming := by
  have hconverged := hcarried.converged h hp hm keepOpen
  refine ⟨hconverged.forest.once parent, hconverged.handles, fun child hc hstays => ?_⟩
  rcases hconverged.child child hstays with ⟨fresh, _⟩ | ⟨_, was, listed, hwas, hpath, hnow⟩
  · obtain ⟨_, hlive, _⟩ := h.owned hc
    exact absurd (id_bounds hlive).2 (Nat.not_lt.mpr fresh)
  · rw [handle?, handle?, hwas, hnow]
    exact congrArg some hpath

include h hp hcarried hm in
theorem Carried.length_stayers (keepOpen : Bool) :
    (before.stayers (merged.rejoined parent keepOpen) parent).length =
      merged.outcome.retained := by
  have hconverged := hcarried.converged h hp hm keepOpen
  have hinLine := hcarried.inLine h hp hm keepOpen
  rw [(hinLine.perm_stayers h).length_eq, hconverged.retained, ← List.countP_eq_length_filter]
  refine List.countP_congr fun child hc => ?_
  rw [decide_eq_true_eq, contains_iff, childrenOf_of_live hp]
  rcases hconverged.child child hc with ⟨fresh, _⟩ | ⟨hold, was, _, hwas, _⟩
  · have hdead : ∀ node, before.get? child ≠ some node :=
      fun node hlive => absurd (id_bounds hlive).2 (Nat.not_lt.mpr fresh)
    refine iff_of_false (fun hold => ?_) fun ⟨node, hlive⟩ => hdead node hlive
    obtain ⟨node, hlive, _⟩ := h.owned (childrenOf_of_live hp ▸ hold)
    exact hdead node hlive
  · exact iff_of_true hold ⟨was, hwas⟩

include h hp hcarried hm in
theorem Carried.leastChurn (keepOpen : Bool)
    (hchildren : (before.handlesOf node.children).IsChain fun a b => siblingOrder a b ≠ .gt)
    (hincoming : incoming.IsChain fun a b => siblingOrder a b ≠ .gt)
    (hnames : NamesFollowPaths (before.handlesOf node.children ++ incoming)) :
    LeastChurn before (merged.rejoined parent keepOpen) parent incoming merged.outcome := by
  have hlive : ∀ child ∈ node.children, ∃ handle, before.handle? child = some handle := by
    intro child hc
    rw [← childrenOf_of_live hp] at hc
    obtain ⟨was, hwas, _⟩ := h.owned hc
    exact ⟨was.handle, congrArg (Option.map Node.handle) hwas⟩
  have hinLine := hcarried.inLine h hp hm keepOpen
  have hkept (path : String) := (hcarried.occurrences_stayers h hp hm keepOpen path).trans
    (Fate.countP_keeps_align hlive hnames
      ((hnames.of_sublist (List.sublist_append_left ..)).pairwise_of_isChain hchildren)
      ((hnames.of_sublist (List.sublist_append_right ..)).pairwise_of_isChain hincoming) path)
  rw [← handlesOf, ← childrenOf_of_live hp] at hkept
  obtain ⟨hinserted, hremoved, _⟩ := counts_carryOut parent recursive (before.emptied parent)
    (Fate.align before.handle? node.children incoming)
  rw [← hm, Fate.filterMap_listed?_align] at hinserted
  rw [← hm, Fate.filterMap_child?_align, ← childrenOf_of_live hp] at hremoved
  have hretained := hcarried.length_stayers h hp hm keepOpen
  have hnew := hinLine.length_eq h
  have hold := length_stayers_add_leavers before (merged.rejoined parent keepOpen) parent
  constructor
  case inLine => exact hinLine
  case kept => exact hkept
  case stays =>
    intro child hc handle hhandle hle
    refine stays_of_occurrences ?_ hc (congrArg (Option.map Handle.path) hhandle)
    rw [hkept, Nat.min_eq_left hle]
  case replaces_none => exact fun child hleaves new hnew => hinLine.path_ne h hkept hleaves hnew
  case inserted => omega
  case removed => omega
  case least =>
    intro other hother
    have hle := length_stayers_le h hother hkept
    have hnew' := hother.length_eq h
    have hold' := length_stayers_add_leavers before other parent
    omega

end

/-- The merge of a sorted listing into sorted children changes no more than it has to. -/
theorem mergeListing_churns_least (h : before.Forest) (hp : before.get? parent = some node)
    (hchildren : (before.handlesOf node.children).IsChain fun a b => siblingOrder a b ≠ .gt)
    (hincoming : incoming.IsChain fun a b => siblingOrder a b ≠ .gt)
    (hnames : NamesFollowPaths (before.handlesOf node.children ++ incoming))
    (recursive keepOpen : Bool) :
    ∃ outcome after,
      before.mergeListing parent incoming recursive keepOpen = (.ok outcome, after) ∧
      LeastChurn before after parent incoming outcome := by
  obtain ⟨merged, hm, hcarried, heq⟩ := mergeListing_eq h hp incoming recursive keepOpen
  exact ⟨_, _, heq, hcarried.leastChurn h hp hm keepOpen hchildren hincoming hnames⟩

/-- A node with a child twice, and another child whose name differs in case only. -/
def tied : Arena :=
  ⟨#[some { Node.fresh (.real "/a") none with children := [2, 3, 4] },
    some (Node.fresh (.real "/a/B") (some 1)), some (Node.fresh (.real "/a/b") (some 1)),
    some (Node.fresh (.real "/a/b") (some 1))]⟩

theorem tied_forest : tied.Forest := by
  refine @forest_of_single _ 1 (fun id hne => ?_) (by decide) (by decide)
  match id with
  | 0 => rfl
  | 1 => exact absurd rfl hne
  | 2 => rfl
  | 3 => rfl
  | 4 => rfl
  | _ + 5 => rfl

/-- The listing has the path of the two equal children once, and another one. -/
theorem tied_churns_least :
    tied.Forest ∧ ∃ outcome after,
      tied.mergeListing 1 [.real "/a/b", .real "/a/c"] true true = (.ok outcome, after) ∧
      LeastChurn tied after 1 [.real "/a/b", .real "/a/c"] outcome :=
  ⟨tied_forest, mergeListing_churns_least tied_forest rfl (by decide +kernel) (by decide +kernel)
    (by decide +kernel) true true⟩

end Arena
end LazyTree
