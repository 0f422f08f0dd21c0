import LazyTree.Proofs.FailedSelection
import LazyTree.Proofs.PathOrder
import LazyTree.Proofs.Way

/-!
Volumes. The root of a path's volume lies above the path unless a search root brings the path in
from elsewhere, and every path between the two has the same root. So the selection of a path on the
way leaves the tree bound as it is.
-/
namespace LazyTree
variable {volumes : VolumeMap} {target mid parent : String}

theorem take_eq_of_begins {a b : List String} {count : Nat} (h : a <+: b)
    (hdeep : min count b.length ≤ a.length) : a.take count = b.take count := by
  rw [List.prefix_iff_eq_take.mp h, List.take_take, List.take_eq_take_iff]
  have hlength := h.length_le
  omega

theorem find?_eq_of_narrower {α : Type} {wide narrow : α → Bool} {items : List α}
    (hwide : ∀ item ∈ items, narrow item = true → wide item = true)
    (hfirst : ∀ item, items.find? wide = some item → narrow item = true) :
    items.find? narrow = items.find? wide := by
  induction items with
  | nil => rfl
  | cons item rest ih =>
    obtain ⟨hitem, hrest⟩ := List.forall_mem_cons.mp hwide
    cases hw : wide item with
    | true =>
      have hfound : (item :: rest).find? wide = some item := List.find?_cons_of_pos hw
      rw [hfound, List.find?_cons_of_pos (hfirst item hfound)]
    | false =>
      have hnarrow : ¬ narrow item = true := fun hn => by simp [hitem hn] at hw
      have hskip : (item :: rest).find? wide = rest.find? wide :=
        List.find?_cons_of_neg (by simp [hw])
      rw [hskip] at hfirst ⊢
      rw [List.find?_cons_of_neg hnarrow, ih hrest hfirst]

namespace VolumeMap

/-- How many first names of a path outside the remote volume make up the root of its volume. -/
def depthOf (volumes : VolumeMap) (target : String) : Nat :=
  match volumes.nestedParentOf? target with
  | some parent => (Path.namedPieces parent).length + 1
  | none => 1

theorem rootOf_of_remote (h : volumes.isRemote target = true) :
    volumes.rootOf target = volumes.remoteRoot := if_pos h

theorem rootOf_of_local (h : volumes.isRemote target = false) :
    volumes.rootOf target = Path.firstSegments target (volumes.depthOf target) := by
  rw [rootOf, h, if_neg Bool.false_ne_true, depthOf]
  split <;> simp_all

theorem isRemote_remoteRoot (volumes : VolumeMap) : volumes.isRemote volumes.remoteRoot = true := by
  rw [isRemote, Path.covers_self, Bool.true_or]

theorem Normalized.isRemote_below (h : volumes.Normalized) (hmid : Path.Normal mid)
    (htarget : Path.Normal target) (hbelow : Path.covers mid target = true)
    (hremote : volumes.isRemote mid = true) : volumes.isRemote target = true := by
  rw [isRemote, Bool.or_eq_true, List.any_eq_true] at hremote ⊢
  cases hremote with
  | inl htop => exact .inl (h.remoteRoot.covers_trans hmid htarget htop hbelow)
  | inr hshortcut =>
    obtain ⟨root, hroot, hcovers⟩ := hshortcut
    exact .inr ⟨root, hroot, (h.searchRoots root hroot).covers_trans hmid htarget hcovers hbelow⟩

theorem above_below (hparent : Path.Normal parent) (hmid : Path.Normal mid)
    (htarget : Path.Normal target) (hbelow : Path.covers mid target = true)
    (h : (parent ≠ mid && Path.covers parent mid) = true) :
    (parent ≠ target && Path.covers parent target) = true := by
  rw [Bool.and_eq_true, decide_eq_true_eq] at h ⊢
  obtain ⟨hne, hcovers⟩ := h
  refine ⟨fun heq => hne ?_, hparent.covers_trans hmid htarget hcovers hbelow⟩
  exact hparent.covers_antisymm hmid hcovers (heq ▸ hbelow)

/-- The paths between the root of a volume and a path have the nested parent of the path above them:
those that stand before it in the list are above none of them. -/
theorem nestedParentOf?_of_between (hnested : ∀ parent ∈ volumes.nestedParents, Path.Normal parent)
    (hmid : Path.Normal mid) (htarget : Path.Normal target)
    (hbelow : Path.covers mid target = true)
    (hdeep : min (volumes.depthOf target) (Path.segments target).length ≤
      (Path.segments mid).length) :
    volumes.nestedParentOf? mid = volumes.nestedParentOf? target := by
  refine find?_eq_of_narrower
    (fun parent hmem => above_below (hnested parent hmem) hmid htarget hbelow) ?_
  intro parent hfound
  have hnormal := hnested parent (List.mem_of_find?_eq_some hfound)
  have habove := List.find?_some hfound
  rw [Bool.and_eq_true, decide_eq_true_eq, hnormal.covers_iff htarget] at habove
  obtain ⟨hne, hbegins⟩ := habove
  have hlong : (Path.segments parent).length < (Path.segments target).length := by
    refine Nat.lt_of_le_of_ne hbegins.length_le fun hlength => hne ?_
    exact (hnormal.eq_iff htarget).mpr (hbegins.eq_of_length hlength)
  have hdepth : volumes.depthOf target = (Path.segments parent).length + 1 := by
    rw [depthOf, show volumes.nestedParentOf? target = some parent from hfound,
      ← hnormal.namedPieces_eq]
  have hshort : (Path.segments parent).length < (Path.segments mid).length := by omega
  rw [Bool.and_eq_true, decide_eq_true_eq, hnormal.covers_iff hmid]
  refine ⟨fun heq => Nat.lt_irrefl _ (heq ▸ hshort), ?_⟩
  exact List.prefix_of_prefix_length_le hbegins ((hmid.covers_iff htarget).mp hbelow)
    (Nat.le_of_lt hshort)

/-- The paths from the root of a volume down to a path are all on that volume. -/
theorem Normalized.rootOf_of_between (h : volumes.Normalized)
    (hnested : ∀ parent ∈ volumes.nestedParents, Path.Normal parent) (hmid : Path.Normal mid)
    (htarget : Path.Normal target) (habove : Path.covers (volumes.rootOf target) mid = true)
    (hbelow : Path.covers mid target = true) : volumes.rootOf mid = volumes.rootOf target := by
  cases hremote : volumes.isRemote target with
  | true =>
    rw [rootOf_of_remote hremote] at habove ⊢
    exact rootOf_of_remote (by rw [isRemote, habove, Bool.true_or])
  | false =>
    have hlocal : volumes.isRemote mid = false := by
      rw [Bool.eq_false_iff]
      intro hmiddle
      simp [h.isRemote_below hmid htarget hbelow hmiddle] at hremote
    rw [rootOf_of_local hremote, (htarget.firstSegments _).covers_iff hmid,
      htarget.segments_firstSegments] at habove
    have hdeep := habove.length_le
    rw [List.length_take] at hdeep
    have hdepth : volumes.depthOf mid = volumes.depthOf target := by
      rw [depthOf, nestedParentOf?_of_between hnested hmid htarget hbelow hdeep, ← depthOf]
    rw [rootOf_of_local hremote, rootOf_of_local hlocal, hmid.firstSegments_eq,
      htarget.firstSegments_eq, hdepth,
      take_eq_of_begins ((hmid.covers_iff htarget).mp hbelow) hdeep]

theorem Normalized.rootOf_rootOf (h : volumes.Normalized)
    (hnested : ∀ parent ∈ volumes.nestedParents, Path.Normal parent)
    (htarget : Path.Normal target) :
    volumes.rootOf (volumes.rootOf target) = volumes.rootOf target := by
  cases hremote : volumes.isRemote target with
  | true => rw [rootOf_of_remote hremote, rootOf_of_remote volumes.isRemote_remoteRoot]
  | false =>
    refine h.rootOf_of_between hnested (h.rootOf htarget) htarget (Path.covers_self _) ?_
    rw [rootOf_of_local hremote]
    exact htarget.covers_firstSegments _

theorem Normalized.rootOf_covers (h : volumes.Normalized) (htarget : Path.Normal target)
    (hplain : ∀ root ∈ volumes.searchRoots, Path.covers root.path target = false) :
    Path.covers (volumes.rootOf target) target = true :=
  ((h.rootOf htarget).covers_iff htarget).mpr (h.rootOf_prefix htarget hplain)

end VolumeMap

theorem Settings.nestedParents_normal (settings : Settings) :
    ∀ parent ∈ settings.volumeMap.nestedParents, Path.Normal parent := by
  intro parent hmem
  obtain ⟨path, _, rfl⟩ := List.mem_map.mp hmem
  exact Path.normal_normalize path

namespace TreeView
variable {σ : Type} {fs : FileSystem σ} {tree : TreeView} {root current : NodeId}
variable {track : List NodeId} {moves : List Move} {s : σ} {budget : Nat} {top : String}

theorem Descent.keeps_root {result : Option (Except Failure NodeId) × TreeView × σ}
    (h : Descent fs target root budget current tree s track moves result) (hw : tree.WellFormed) :
    result.2.1.root = tree.root ∧ result.2.1.rootPath? = tree.rootPath? ∨
      result.2.1.root = none ∧ ∃ e, result.1 = some (.error e) := by
  by_cases hroot : root ∈ failedBy moves
  · cases hanswer : result.1 with
    | none =>
      cases h with
      | spent passage => simp [(passage.made hw).2.2] at hroot
      | halted _ _ _ => cases hanswer
    | some answer =>
      cases answer with
      | ok id => simp [(h.arrived hw hanswer).1] at hroot
      | error e =>
        obtain ⟨id, _, _, _, _, hends⟩ := h.fails hw hanswer
        cases hends with
        | inl hmissed => simp [hmissed.failed] at hroot
        | inr hdenied =>
          rw [hdenied.failed, List.mem_singleton] at hroot
          exact .inr ⟨(hdenied.cleared hroot.symm).1, e, rfl⟩
  · exact .inl ⟨root_of_frame (h.frame hw hroot), h.rootPath? hw hroot⟩

theorem selectWithin_keeps_root (hw : tree.WellFormed) (fs : FileSystem σ) (budget : Nat)
    (path : String) (s : σ) (hroot : tree.root = some root)
    (htop : tree.rootPath? = some (tree.volumes.rootOf (Path.normalize path))) :
    let selected := selectWithin fs budget path tree s
    selected.2.1.root = tree.root ∧ selected.2.1.rootPath? = tree.rootPath? ∨
      selected.2.1.root = none ∧ ∃ e, selected.1 = some (.error e) := by
  intro selected
  cases selectWithin_cases hw fs budget path s with
  | inl hstays =>
    obtain ⟨_, _, _, hsame, _⟩ := hstays
    exact .inl ⟨congrArg TreeView.root hsame, congrArg TreeView.rootPath? hsame⟩
  | inr hdescends =>
    obtain ⟨_, _, _, hbound, hdescent, _⟩ := hdescends
    rw [ensureRoot_of_bound hroot htop] at hbound hdescent
    exact hdescent.keeps_root hbound

end TreeView

namespace Session
variable {σ : Type}

/-- How volumes split the namespace, whatever the settings. The root of a path's volume is
normalized and lies at or above the path, unless a search root does; it is its own root; and it is
the root of every path between the two. So a tree that is bound to it is bound already when such a
path is selected, and keeps its root, unless the root cannot be listed any more. -/
theorem run_stays_bound (fs : FileSystem σ) (settings : Settings) (filter : NameFilter) (world : σ)
    (actions : List (Action σ)) :
    let volumes := settings.volumeMap
    let tree := ((start filter volumes world).run fs actions).tree
    ∀ target, Path.Normal target →
      let top := volumes.rootOf target
      Path.Normal top ∧
      ((∀ root ∈ volumes.searchRoots, Path.covers root.path target = false) →
        Path.covers top target = true) ∧
      volumes.rootOf top = top ∧
      ∀ mid, Path.Normal mid → Path.covers top mid = true → Path.covers mid target = true →
        volumes.rootOf mid = top ∧
        ∀ root, tree.root = some root → tree.rootPath? = some top →
          tree.ensureRoot (volumes.rootOf mid) = (tree, root) ∧
          ∀ budget s, let selected := tree.selectWithin fs budget mid s
            selected.2.1.root = some root ∧ selected.2.1.rootPath? = some top ∨
              selected.2.1.root = none ∧ ∃ e, selected.1 = some (.error e) := by
  intro volumes tree target htarget top
  have hvolumes := settings.normalized
  have hnested := settings.nestedParents_normal
  have hw : tree.WellFormed := wellFormed_run (wellFormed_start filter volumes world) fs actions
  refine ⟨hvolumes.rootOf htarget, hvolumes.rootOf_covers htarget,
    hvolumes.rootOf_rootOf hnested htarget, fun mid hmid habove hbelow => ?_⟩
  have hmiddle : volumes.rootOf mid = top :=
    hvolumes.rootOf_of_between hnested hmid htarget habove hbelow
  refine ⟨hmiddle, fun root hroot htop => ⟨?_, fun budget s => ?_⟩⟩
  · rw [hmiddle]
    exact TreeView.ensureRoot_of_bound hroot htop
  · have hkept : tree.volumes = volumes := volumes_run fs filter volumes world actions
    have hbound : tree.rootPath? = some (tree.volumes.rootOf (Path.normalize mid)) := by
      rw [hkept, show Path.normalize mid = mid from hmid, hmiddle, htop]
    have hselected := TreeView.selectWithin_keeps_root hw fs budget mid s hroot hbound
    rwa [hroot, htop] at hselected

/-- Nested parents lie in each other, and the remote volume lies in the volume of the path. -/
theorem nested_volume_stays_bound :
    let settings : Settings :=
      { Settings.unset with volumes :=
        { VolumeSettings.unset with
          remoteRoot := some "A/b//A/b/A", nestedParents := some ["/A/b/", "/", "A"],
          searchRoots := some [⟨"/b", "Recent"⟩] } }
    let tree := ((start .everything settings.volumeMap ()).run .endless
      [.operate (.select "/A/b/A/b/b" 5)]).tree
    let top := settings.volumeMap.rootOf "/A/b/A/b/b"
    top = "/A/b/A" ∧ settings.volumeMap.rootOf top = top ∧ Path.covers top "/A/b/A/b/b" = true ∧
      settings.volumeMap.rootOf "/A/b/A/b" = top ∧ tree.selectedPath? = some "/A/b/A/b/b" ∧
      tree.ensureRoot (settings.volumeMap.rootOf "/A/b/A/b") = (tree, 1) := by
  intro settings tree top
  have hroot : tree.root = some 1 := by decide +kernel
  have htop : tree.rootPath? = some top := by decide +kernel
  obtain ⟨_, hcovers, hsame, hbetween⟩ := run_stays_bound .endless settings .everything ()
    [.operate (.select "/A/b/A/b/b" 5)] "/A/b/A/b/b" (by decide)
  obtain ⟨hmiddle, hbound⟩ :=
    hbetween "/A/b/A/b" (by decide) (by decide +kernel) (by decide)
  exact ⟨by decide +kernel, hsame, hcovers (by decide +kernel), hmiddle, by decide +kernel,
    (hbound 1 hroot htop).1⟩

end Session

end LazyTree
