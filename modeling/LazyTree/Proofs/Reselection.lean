import LazyTree.FileSystem.Scripted
import LazyTree.Proofs.Passage
import LazyTree.Proofs.Presented

/-!
A selection that is repeated at once. The node that was selected is found again by its handle: while
that still is the target, the second selection asks for nothing and changes nothing. A placeholder
that was resolved to a directory elsewhere is no longer found, and then no second selection arrives
where the first one did.
-/
namespace LazyTree
variable {σ : Type} {fs : FileSystem σ} {s s' : σ} {same : String → String → Bool}

namespace TreeView
variable {tree mid : TreeView} {id root goal current : NodeId} {node : Node} {target : String}
variable {track way : List NodeId} {moves : List Move}

theorem alreadySelected_of_live (hsame : ∀ s a b, fs.sameDirectory s a b = (same a.path b.path, s))
    (hselected : tree.selected = some id) (hlive : tree.node? id = some node) (target : String)
    (s : σ) :
    alreadySelected fs target tree s =
      (if same node.handle.path target = true then some id else none, s) := by
  have hcompare : fs.sameDirectory s node.handle (.real target) =
      (same node.handle.path target, s) := hsame ..
  simp only [alreadySelected, hselected, hlive, hcompare]
  cases same node.handle.path target <;> rfl

theorem same_of_alreadySelected
    (hsame : ∀ s a b, fs.sameDirectory s a b = (same a.path b.path, s)) (hw : tree.WellFormed)
    (h : alreadySelected fs target tree s = (some id, s')) :
    tree.selected = some id ∧ ∃ node, tree.node? id = some node ∧
      same node.handle.path target = true := by
  have hselected := selected_of_alreadySelected (congrArg Prod.fst h)
  obtain ⟨node, hlive⟩ := hw.selected_live hselected
  refine ⟨hselected, node, hlive, ?_⟩
  by_contra hother
  simp [alreadySelected_of_live hsame hselected hlive, hother] at h

theorem selectWithin_of_selected
    (hsame : ∀ s a b, fs.sameDirectory s a b = (same a.path b.path, s))
    (hselected : tree.selected = some id) (hlive : tree.node? id = some node) {path : String}
    (hpath : same node.handle.path (Path.normalize path) = true) (budget : Nat) (s : σ) :
    selectWithin fs budget path tree s = (some (.ok id), tree, s) := by
  have hfound := alreadySelected_of_live hsame hselected hlive (Path.normalize path) s
  rw [if_pos hpath] at hfound
  simp only [selectWithin, hfound]

theorem Passage.ne_of_other (hsame : ∀ s a b, fs.sameDirectory s a b = (same a.path b.path, s))
    (hw : tree.WellFormed) (hgoal : tree.node? goal = some node)
    (hother : same node.handle.path target = false)
    (hway : (way ++ [goal]).IsChain fun above below => tree.wayTo? above target = some below)
    (hfirst : (way ++ [goal]).head? = some current)
    (h : Passage fs target root current tree s track moves id mid s')
    (hat : ∃ node, mid.node? id = some node ∧
      (fs.sameDirectory s' node.handle (.real target)).1 = true) : id ≠ goal := by
  induction way generalizing current s track moves with
  | nil =>
    obtain rfl : goal = current := Option.some.inj hfirst
    cases h with
    | nil =>
      obtain ⟨now, hnow, hsame'⟩ := hat
      obtain rfl := Option.some.inj (hgoal.symm.trans hnow)
      rw [hsame] at hsame'
      exact absurd (hother.symm.trans hsame') Bool.false_ne_true
    | cons step rest =>
      have hrest := rest.le ((step.trail hw).run.wellFormed hw)
      exact Nat.ne_of_gt (Nat.lt_of_lt_of_le (step.lower hw) hrest)
  | cons above way ih =>
    obtain rfl : above = current := Option.some.inj hfirst
    obtain ⟨hnext, hrest⟩ := List.isChain_cons.mp hway
    cases h with
    | nil =>
      have hlower := (List.pairwise_cons.mp (pairwise_of_ways hw hway)).1 goal (by simp)
      exact Nat.ne_of_lt hlower
    | cons step rest =>
      cases step with
      | known _ _ hchild =>
        refine ih hrest ?_ rest
        cases hhead : (way ++ [goal]).head? with
        | none => simp at hhead
        | some next => rw [← hchild, hnext next hhead]
      | listed _ _ missing _ _ =>
        cases hhead : (way ++ [goal]).head? with
        | none => simp at hhead
        | some next => simp [hnext next hhead] at missing

theorem Descent.not_again {budget again : Nat} {later : List NodeId} {made : List Move}
    {first second : Option (Except Failure NodeId) × TreeView × σ}
    (hsame : ∀ s a b, fs.sameDirectory s a b = (same a.path b.path, s)) (hw : tree.WellFormed)
    (h : Descent fs target root budget root tree s track moves first)
    (hok : first.1 = some (.ok goal)) (hgoal : first.2.1.node? goal = some node)
    (hother : same node.handle.path target = false)
    (h' : Descent fs target root again root { first.2.1 with selected := none } s' later made
      second) :
    second.1 ≠ some (.ok goal) := by
  intro hagain
  have hlast := (h.trail hw).run.wellFormed hw
  have hcleared : ({ first.2.1 with selected := none } : TreeView).WellFormed :=
    hlast.congr (fun _ => rfl) rfl (by simp)
  have hchain := h.isChain hw (Nat.le_refl root)
  obtain ⟨_, above, _, _, _, _, rfl, passage, _⟩ := h.arrived hw hok
  obtain ⟨_, _, _, mid, s'', _, _, passage', halts⟩ := h'.arrived hcleared hagain
  obtain ⟨_, _, _, hat⟩ := halts.arrived ((passage'.trail hcleared).run.wellFormed hcleared)
  exact passage'.ne_of_other hsame hcleared hgoal hother hchain passage.head? hat rfl

/-- A selection that arrived arrives again exactly if the handle of its node still is the target's,
and then the second one asks for nothing and changes nothing. -/
theorem selectWithin_again (hsame : ∀ s a b, fs.sameDirectory s a b = (same a.path b.path, s))
    (hw : tree.WellFormed) {budget : Nat} {path : String} {s : σ}
    (hok : (selectWithin fs budget path tree s).1 = some (.ok id)) :
    let first := selectWithin fs budget path tree s
    ∃ node, first.2.1.node? id = some node ∧ ∀ again,
      let second := selectWithin fs again path first.2.1 first.2.2
      (same node.handle.path (Path.normalize path) = true →
        second = (some (.ok id), first.2.1, first.2.2)) ∧
      (second.1 = some (.ok id) → same node.handle.path (Path.normalize path) = true) := by
  intro first
  have hlast : first.2.1.WellFormed := (selectWithin_trail hw fs budget path s).run.wellFormed hw
  rcases selectWithin_cases hw fs budget path s with
    ⟨found, hfound, hanswer, htree, _⟩ | ⟨world, moves, _, hbound, hdescent, _⟩
  · obtain rfl : found = id := by simpa [hanswer] using hok
    obtain ⟨hselected, node, hlive, hpath⟩ := same_of_alreadySelected hsame hw hfound
    rw [← htree] at hselected hlive
    exact ⟨node, hlive, fun again =>
      ⟨fun h => selectWithin_of_selected hsame hselected hlive h again _, fun _ => hpath⟩⟩
  · obtain ⟨hfailed, _, _, mid, s', _, _, passage, halts⟩ := hdescent.arrived hbound hok
    obtain ⟨_, _, hselected, _⟩ := halts.arrived ((passage.trail hbound).run.wellFormed hbound)
    obtain ⟨node, hlive⟩ := hlast.selected_live hselected
    refine ⟨node, hlive, fun again =>
      ⟨fun h => selectWithin_of_selected hsame hselected hlive h again _, fun hagain => ?_⟩⟩
    by_contra hother
    rw [Bool.not_eq_true] at hother
    have hmissed := alreadySelected_of_live hsame hselected hlive (Path.normalize path) first.2.2
    rw [hother] at hmissed
    have hframe := hdescent.frame hbound (hfailed ▸ List.not_mem_nil)
    have hroot := (root_of_frame hframe).trans (root_ensureRoot tree _)
    have hvolumes : first.2.1.volumes = tree.volumes :=
      (congrArg (fun frame => frame.2.volumes) hframe).trans
        (congrArg Lister.volumes (lister_ensureRoot tree _))
    have htop := (hdescent.rootPath? hbound (hfailed ▸ List.not_mem_nil)).trans
      (rootPath?_ensureRoot tree _)
    rcases selectWithin_cases hlast fs again path first.2.2 with
      ⟨_, hfound, _⟩ | ⟨_, _, _, _, hdescent', _⟩
    · simpa using hmissed.symm.trans hfound
    · rw [hvolumes, ensureRoot_of_bound hroot htop] at hdescent'
      exact hdescent.not_again hsame hbound hok hlive hother hdescent' hagain

theorem same_of_selected (hsame : ∀ s a b, fs.sameDirectory s a b = (same a.path b.path, s))
    (hgives : fs.Gives fun _ => True) (hw : tree.WellFormed)
    (hfit : tree.HandlesFit fun _ => True) {budget : Nat} {path : String} {s : σ}
    (hok : (selectWithin fs budget path tree s).1 = some (.ok id))
    (hlive : (selectWithin fs budget path tree s).2.1.node? id = some node) :
    same node.handle.path (Path.normalize path) = true := by
  rcases selectWithin_cases hw fs budget path s with
    ⟨found, hfound, hanswer, htree, _⟩ | ⟨world, moves, _, hbound, hdescent, _⟩
  · obtain rfl : found = id := by simpa [hanswer] using hok
    obtain ⟨_, now, hnow, hpath⟩ := same_of_alreadySelected hsame hw hfound
    rw [htree] at hlive
    obtain rfl := Option.some.inj (hnow.symm.trans hlive)
    exact hpath
  · have hfitbound := (ensureRoot_trail fs tree (tree.volumes.rootOf (Path.normalize path))
      world).run.handlesFit hw hgives hfit
    obtain ⟨_, _, _, mid, s', _, _, passage, halts⟩ := hdescent.arrived hbound hok
    have hpassage := (passage.trail hbound).run
    have hmid := hpassage.wellFormed hbound
    have hfitmid := hpassage.handlesFit hbound hgives hfitbound
    have hfitlast := (halts.trail hmid).run.handlesFit hmid hgives hfitmid
    obtain ⟨_, _, _, was, hwas, hcompare⟩ := halts.arrived hmid
    have hpath := (((halts.trail hmid).run.evolves hmid).lived hwas hlive).1
    rw [hsame] at hcompare
    rwa [(hfitlast _ _ hlive).1, hpath, ← (hfitmid _ _ hwas).1]

end TreeView

namespace Session

/-- A selection that is repeated at once, whatever it is that tells directories apart by their
paths. The second one arrives where the first did exactly if the handle of the node still is the
target's, as it is where placeholders are resolved in place; and then the second one leaves
everything as it is, the state of the filesystem included. -/
theorem run_reselection_repeats_iff (fs : FileSystem σ)
    (hsame : ∀ s a b, fs.sameDirectory s a b = (same a.path b.path, s)) (filter : NameFilter)
    (volumes : VolumeMap) (world : σ) (actions : List (Action σ)) (budget : Nat) (path : String)
    (id : NodeId) :
    let x := (start filter volumes world).run fs actions
    let first := x.tree.selectWithin fs budget path x.world
    first.1 = some (.ok id) → ∃ node, first.2.1.node? id = some node ∧
      (∀ again,
        let second := first.2.1.selectWithin fs again path first.2.2
        (second.1 = some (.ok id) ↔ same node.handle.path (Path.normalize path) = true) ∧
        (second.1 = some (.ok id) → second = first)) ∧
      ((∀ s path found, (fs.resolve s path).1 = .ok found → found.path = path) →
        same node.handle.path (Path.normalize path) = true) := by
  intro x first hok
  have hstart := wellFormed_start filter volumes world
  have hw : x.tree.WellFormed := wellFormed_run hstart fs actions
  obtain ⟨node, hlive, hagain⟩ := TreeView.selectWithin_again hsame hw hok
  have hfirst : first = (some (.ok id), first.2.1, first.2.2) := Prod.ext hok rfl
  refine ⟨node, hlive, fun again => ?_, fun hplace => ?_⟩
  · obtain ⟨hrepeats, honly⟩ := hagain again
    refine ⟨⟨honly, fun h => by rw [hrepeats h]⟩, fun h => ?_⟩
    rw [hfirst]
    exact hrepeats (honly h)
  · have hgives : fs.Gives fun _ => True :=
      ⟨hplace _ _ _, fun _ => trivial, fun _ _ _ => trivial, fun _ _ => trivial,
        fun _ _ => trivial⟩
    have hfit := fits_start fs (fun _ => True) filter volumes world
    exact TreeView.same_of_selected hsame hgives hw (fits_run hstart hgives hfit actions).handles
      hok hlive

/-- The first selection lists two levels, and the second one nothing. -/
theorem endless_reselection_repeats :
    let first := (TreeView.unbound .everything ⟨"/net", [], "", "", [], []⟩).selectWithin .endless 3
      "/A//b" ()
    first.1 = some (.ok 3) ∧ first.2.1.selectWithin .endless 1 "/A//b" () = first := by
  have hplace (s : Unit) (path : String) (found : Handle)
      (h : (FileSystem.endless.resolve s path).1 = .ok found) : found.path = path :=
    Except.ok.inj h ▸ rfl
  obtain ⟨node, _, hagain, hsame⟩ := @run_reselection_repeats_iff Unit (fun a b => decide (a = b))
    .endless (fun _ _ _ => rfl) .everything ⟨"/net", [], "", "", [], []⟩ () [] 3 "/A//b" 3
    (by decide +kernel)
  exact ⟨by decide +kernel, (hagain 1).2 ((hagain 1).1.mpr (hsame hplace))⟩

/-- The placeholder at the target is resolved to a directory at another path when it is selected.
The node of the target is selected, and a second selection does not find it. -/
theorem resolved_elsewhere_is_not_reselected :
    let elsewhere : Scripted :=
      { Scripted.empty with listings := [("/w", [])], resolutions := [("/a", .real "/w")] }
    let first := (TreeView.unbound .everything ⟨"/net", [], "", "", [], []⟩).select
      Scripted.plainFileSystem "/a" elsewhere
    let second := first.2.1.select Scripted.plainFileSystem "/a" first.2.2
    first.1 = some (.ok 1) ∧ first.2.1.selectedPath? = some "/a" ∧
      second.1 = some (.error (.notFound "/a")) ∧ second.2.1.selected = none ∧
      second.2.2.requests = .enumerate "/w" :: first.2.2.requests := by
  decide +kernel

end Session

end LazyTree
