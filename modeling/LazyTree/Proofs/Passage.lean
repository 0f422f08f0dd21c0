import LazyTree.Proofs.Expansion
import LazyTree.Proofs.Levels
import LazyTree.Proofs.Tickets
import Mathlib.Data.List.Chain

/-!
How a selection goes down. It steps from node to node, and lists a level where no child leads on,
until it halts: it settles, misses its target or cannot list. Ids grow on the way down and a step
leaves what lies above it alone, so that in the end each node that was passed leads to the next one.
-/
namespace LazyTree.TreeView
variable {σ : Type} {fs : FileSystem σ} {s s' s'' : σ} {target path : String}
variable {tree tree' last : TreeView} {node : Node} {moves ending : List Move} {e : Failure}
variable {id root current child top : NodeId} {track : List NodeId}

/-- The nodes that a descent comes to. -/
def descendTrack (fs : FileSystem σ) (target : String) (root : NodeId) :
    Nat → NodeId → TreeView → σ → List NodeId
  | 0, _, _, _ => []
  | budget + 1, current, tree, s =>
    match tree.node? current with
    | none => []
    | some node =>
      current :: match fs.sameDirectory s node.handle (.real target) with
      | (true, _) => []
      | (false, s) =>
        match tree.wayTo? current target with
        | some child => descendTrack fs target root budget child tree s
        | none =>
          match listLevel fs current root tree s with
          | (.error _, _, _) => []
          | (.ok _, tree, s) =>
            match tree.wayTo? current target with
            | some child => descendTrack fs target root budget child tree s
            | none => []

/-- The nodes that a selection comes to; none when it stays where it is. -/
def selectTrack (fs : FileSystem σ) (budget : Nat) (path : String) (tree : TreeView) (s : σ) :
    List NodeId :=
  let target := Path.normalize path
  match alreadySelected fs target tree s with
  | (some _, _) => []
  | (none, s) =>
    let (bound, root) := tree.ensureRoot (tree.volumes.rootOf target)
    descendTrack fs target root budget root { bound with selected := none } s

/-- One step down. The child that leads on is there, or it is once the level is listed. -/
inductive StepsDown (fs : FileSystem σ) (target : String) (root : NodeId) :
    NodeId → TreeView → σ → List Move → NodeId → TreeView → σ → Prop where
  | known {current child : NodeId} {tree : TreeView} {node : Node} {s s' : σ}
      (live : tree.node? current = some node)
      (other : fs.sameDirectory s node.handle (.real target) = (false, s'))
      (way : tree.wayTo? current target = some child) :
      StepsDown fs target root current tree s [] child tree s'
  | listed {current child : NodeId} {tree listed : TreeView} {node : Node} {s s' s'' : σ}
      (live : tree.node? current = some node)
      (other : fs.sameDirectory s node.handle (.real target) = (false, s'))
      (missing : tree.wayTo? current target = none)
      (level : listLevel fs current root tree s' = (.ok (), listed, s''))
      (way : listed.wayTo? current target = some child) :
      StepsDown fs target root current tree s (listLevelMoves fs current root tree s') child
        listed s''

/-- The steps from one node down to another, with the nodes that are passed on the way. -/
inductive Passage (fs : FileSystem σ) (target : String) (root : NodeId) :
    NodeId → TreeView → σ → List NodeId → List Move → NodeId → TreeView → σ → Prop where
  | nil {current : NodeId} {tree : TreeView} {s : σ} :
      Passage fs target root current tree s [] [] current tree s
  | cons {current child last : NodeId} {tree mid tree' : TreeView} {s s' s'' : σ}
      {track : List NodeId} {moves later : List Move}
      (step : StepsDown fs target root current tree s moves child mid s')
      (rest : Passage fs target root child mid s' track later last tree' s'') :
      Passage fs target root current tree s (current :: track) (moves ++ later) last tree' s''

/-- The end of a descent at its last node. -/
inductive Halts (fs : FileSystem σ) (target : String) (root : NodeId) :
    NodeId → TreeView → σ → List Move → Except Failure NodeId → TreeView → σ → Prop where
  | settled {current : NodeId} {tree : TreeView} {node : Node} {s s' : σ}
      (live : tree.node? current = some node)
      (same : fs.sameDirectory s node.handle (.real target) = (true, s'))
      (resolved : node.handle.isUnresolved = false) :
      Halts fs target root current tree s [.settle current] (.ok current) (tree.settle current) s'
  | resolved {current : NodeId} {tree listed : TreeView} {node : Node} {s s' s'' : σ}
      (live : tree.node? current = some node)
      (same : fs.sameDirectory s node.handle (.real target) = (true, s'))
      (level : listLevel fs current root tree s' = (.ok (), listed, s''))
      (unresolved : node.handle.isUnresolved = true) :
      Halts fs target root current tree s
        (listLevelMoves fs current root tree s' ++ [.settle current]) (.ok current)
        (listed.settle current) s''
  | missed {current : NodeId} {tree listed : TreeView} {node : Node} {s s' s'' : σ}
      (live : tree.node? current = some node)
      (other : fs.sameDirectory s node.handle (.real target) = (false, s'))
      (level : listLevel fs current root tree s' = (.ok (), listed, s''))
      (missing : listed.wayTo? current target = none) :
      Halts fs target root current tree s (listLevelMoves fs current root tree s')
        (.error (.notFound target)) listed s''
  | failed {current : NodeId} {tree listed : TreeView} {node : Node} {s s' s'' : σ} {same : Bool}
      {e : Failure} (live : tree.node? current = some node)
      (compared : fs.sameDirectory s node.handle (.real target) = (same, s'))
      (needed : same = true → node.handle.isUnresolved = true)
      (level : listLevel fs current root tree s' = (.error e, listed, s'')) :
      Halts fs target root current tree s (listLevelMoves fs current root tree s') (.error e)
        listed s''

/-- A whole descent: it passes down to its last node and halts there, or its budget is spent on the
way. -/
inductive Descent (fs : FileSystem σ) (target : String) (root : NodeId) :
    Nat → NodeId → TreeView → σ → List NodeId → List Move →
      Option (Except Failure NodeId) × TreeView × σ → Prop where
  | spent {current last : NodeId} {tree mid : TreeView} {s s' : σ} {track : List NodeId}
      {moves : List Move}
      (passage : Passage fs target root current tree s track moves last mid s') :
      Descent fs target root track.length current tree s track moves (none, mid, s')
  | halted {budget : Nat} {current last : NodeId} {tree mid tree' : TreeView} {s s' s'' : σ}
      {track : List NodeId} {moves ending : List Move} {answer : Except Failure NodeId}
      (passage : Passage fs target root current tree s track moves last mid s')
      (halts : Halts fs target root last mid s' ending answer tree' s'')
      (within : track.length < budget) :
      Descent fs target root budget current tree s (track ++ [last]) (moves ++ ending)
        (some answer, tree', s'')

theorem Descent.step {budget : Nat} {later : List Move}
    {result : Option (Except Failure NodeId) × TreeView × σ}
    (step : StepsDown fs target root current tree s moves child tree' s')
    (rest : Descent fs target root budget child tree' s' track later result) :
    Descent fs target root (budget + 1) current tree s (current :: track) (moves ++ later)
      result := by
  cases rest with
  | spent passage => exact .spent (.cons step passage)
  | halted passage halts within =>
    rw [← List.append_assoc]
    exact .halted (.cons step passage) halts (Nat.succ_lt_succ within)

theorem Halts.descent {answer : Except Failure NodeId}
    (h : Halts fs target root current tree s ending answer last s') (budget : Nat) :
    Descent fs target root (budget + 1) current tree s [current] ending (some answer, last, s') :=
  .halted .nil h (Nat.succ_pos budget)

theorem descend_descent (hw : tree.WellFormed) (hlive : tree.node? current = some node)
    (fs : FileSystem σ) (target : String) (root : NodeId) (budget : Nat) (s : σ) :
    Descent fs target root budget current tree s
      (descendTrack fs target root budget current tree s)
      (descendMoves fs target root budget current tree s)
      (descend fs target root budget current tree s) := by
  induction budget generalizing current tree node s with
  | zero => exact .spent .nil
  | succ budget ih =>
    have hnext {next : TreeView} (hnext : next.WellFormed) {child : NodeId}
        (hway : next.wayTo? current target = some child) (world : σ) :
        Descent fs target root budget child next world
          (descendTrack fs target root budget child next world)
          (descendMoves fs target root budget child next world)
          (descend fs target root budget child next world) := by
      obtain ⟨_, hbelow, _⟩ := hnext.linked.owned (mem_children_of_wayTo? hway)
      exact ih hnext hbelow world
    rw [descend, descendMoves, descendTrack]
    simp only [hlive]
    cases hcompare : fs.sameDirectory s node.handle (.real target) with
    | mk same world =>
    have hlisted := (listLevel_trail hw fs current root world).run.wellFormed hw
    generalize hlevel : listLevel fs current root tree world = level at hlisted
    obtain ⟨answer, listed, later⟩ := level
    cases same with
    | true =>
      simp only [arriveAt, arriveMoves, hlevel]
      cases hunresolved : node.handle.isUnresolved with
      | false => exact (Halts.settled hlive hcompare hunresolved).descent budget
      | true =>
        cases answer with
        | error e =>
          rw [if_pos rfl, if_pos rfl, List.append_nil]
          exact (Halts.failed hlive hcompare (fun _ => hunresolved) hlevel).descent budget
        | ok _ => exact (Halts.resolved hlive hcompare hlevel hunresolved).descent budget
    | false =>
      cases hway : tree.wayTo? current target with
      | some child => exact .step (.known hlive hcompare hway) (hnext hw hway world)
      | none =>
        simp only [hlevel]
        cases answer with
        | error e =>
          rw [List.append_nil]
          exact (Halts.failed hlive hcompare (absurd · Bool.false_ne_true) hlevel).descent budget
        | ok _ =>
          dsimp only
          cases hon : listed.wayTo? current target with
          | none =>
            rw [List.append_nil]
            exact (Halts.missed hlive hcompare hlevel hon).descent budget
          | some child =>
            exact .step (.listed hlive hcompare hway hlevel hon) (hnext hlisted hon later)

theorem wayTo?_of_children (hw : tree.WellFormed) (hw' : tree'.WellFormed) {issued : List NodeId}
    (hevolves : Arena.Evolves issued tree.arena tree'.arena)
    (hsame : tree'.children id = tree.children id) :
    tree'.wayTo? id target = tree.wayTo? id target := by
  unfold wayTo?
  rw [hsame, ← List.head?_filter, ← List.head?_filter]
  refine congrArg List.head? (List.filter_congr fun child hchild => ?_)
  obtain ⟨was, hwas, _⟩ := hw.linked.owned hchild
  obtain ⟨now, hnow, _⟩ := hw'.linked.owned (hsame ▸ hchild)
  simp [pathOf?, node?, hwas, hnow, (hevolves.lived hwas hnow).1]

theorem children_settle (tree : TreeView) (id i : NodeId) :
    (tree.settle id).children i = tree.children i := by
  have hmap : ((tree.settle id).arena.get? i).map Node.children =
      (tree.arena.get? i).map Node.children := map_get?_expandUpwards (fun _ => rfl) ..
  rw [children, children, Arena.childrenOf_eq_getD, hmap, ← Arena.childrenOf_eq_getD]

theorem node?_of_listLevel (hw : tree.WellFormed) (hlive : tree.node? current = some node)
    (hlevel : listLevel fs current root tree s = (.ok (), tree', s')) (hlt : id < current)
    {n : Node} (hid : tree.node? id = some n) : tree'.node? id = some n := by
  have hnot : ¬ tree.arena.Under current id := fun hunder =>
    Nat.not_lt.mpr (hw.linked.le_of_under hunder) hlt
  rw [listLevel_tree hw hlevel]
  exact visit_untouched hw hlive fs tree.lister false true s hid hnot

theorem listLevelMoves_of_ok (hw : tree.WellFormed) (hlive : tree.node? id = some node)
    (hlevel : listLevel fs id root tree s = (.ok (), tree', s')) :
    (listLevelMoves fs id root tree s).all Move.refreshes = true ∧
      issuedBy (listLevelMoves fs id root tree s) = [id] ∧
      failedBy (listLevelMoves fs id root tree s) = [] := by
  have hmoves : listLevelMoves fs id root tree s = refreshMoves fs id false true tree s := by
    unfold listLevel at hlevel
    unfold listLevelMoves
    generalize refreshWith fs id false true tree s = result at hlevel ⊢
    obtain ⟨_ | totals, refreshed, world⟩ := result
    · simp at hlevel
    · exact List.append_nil _
  rw [hmoves]
  refine ⟨refreshes_refreshMoves .., ?_⟩
  rw [refreshMoves_false hw, issuedBy_visitMoves hlive, failedBy_visitMoves hlive]
  refine ⟨rfl, ?_⟩
  rcases listLevel_cases hw hlive fs root s with ⟨e, _, heq⟩ | ⟨listing, _, _, _, hfetch, _⟩
  · simp [heq] at hlevel
  · have hok : (fetchVisible fs tree.lister.filter tree.lister.volumes node.handle s).1 =
      .ok listing := hfetch
    rw [hok]

/-- A level that cannot be listed is asked for in vain, and a root that cannot goes with all the
rest. -/
theorem listLevel_error (hw : tree.WellFormed) (hlive : tree.node? id = some node)
    (hlevel : listLevel fs id root tree s = (.error e, tree', s')) :
    (fetchVisible fs tree.filter tree.volumes node.handle s).1 = .error e ∧
      tree' = (if id = root then (tree.bumped id).clear else tree.bumped id) ∧
      listLevelMoves fs id root tree s =
        [.issue id false, .apply ⟨id, node.generation + 1, node.handle, false⟩ (.error e)] ++
          if id = root then [.clear] else [] := by
  unfold listLevel at hlevel
  rcases visit_of_live hw hlive fs tree.lister false true s with
    ⟨e', hfetch, heq⟩ | ⟨_, _, _, _, _, _, _, heq⟩
  · have hcurrent : (tree.bumped id).Current ⟨id, node.generation + 1, node.handle, false⟩ :=
      ⟨_, get?_bumped hlive, rfl⟩
    have hdropped := (applyFetched_error_iff e').mpr hcurrent
    rw [listLevelMoves, refreshMoves_false hw, visitMoves]
    simp only [refreshWith_eq, heq, Prod.mk.injEq, Except.error.injEq] at hlevel ⊢
    obtain ⟨rfl, rfl, rfl⟩ := hlevel
    refine ⟨hfetch, rfl, ?_⟩
    simp only [issue_of_live hlive, Lister.fetch, hfetch, hdropped, appliedMoves]
  · simp [refreshWith_eq, heq, visitChecks_answer] at hlevel

theorem pairwise_of_ways (hw : tree.WellFormed)
    (h : track.IsChain fun above below => tree.wayTo? above target = some below) :
    track.Pairwise (· < ·) :=
  List.isChain_iff_pairwise.mp (h.imp fun _ _ hway =>
    hw.linked.lower (mem_children_of_wayTo? hway))

namespace StepsDown

theorem trail (h : StepsDown fs target root current tree s moves child tree' s')
    (hw : tree.WellFormed) : Trail fs tree s moves tree' s' := by
  cases h with
  | @known _ _ node _ _ _ other _ =>
    have hasked : Trail fs tree s [] tree (fs.sameDirectory s node.handle (.real target)).2 :=
      .compared _ _ .nil
    rwa [other] at hasked
  | @listed _ _ _ node _ world _ _ other _ level _ =>
    have hlevel := listLevel_trail hw fs current root world
    rw [level] at hlevel
    refine .compared node.handle (.real target) ?_
    rwa [other]

theorem way (h : StepsDown fs target root current tree s moves child tree' s') :
    tree'.wayTo? current target = some child := by
  cases h <;> assumption

theorem lower (h : StepsDown fs target root current tree s moves child tree' s')
    (hw : tree.WellFormed) : current < child :=
  ((h.trail hw).run.wellFormed hw).linked.lower (mem_children_of_wayTo? h.way)

theorem above (h : StepsDown fs target root current tree s moves child tree' s')
    (hw : tree.WellFormed) (hlt : id < current) (hid : tree.node? id = some node) :
    tree'.node? id = some node := by
  cases h with
  | known _ _ _ => exact hid
  | listed live _ _ level _ => exact node?_of_listLevel hw live level hlt hid

theorem made (h : StepsDown fs target root current tree s moves child tree' s')
    (hw : tree.WellFormed) :
    moves.all Move.refreshes = true ∧ (issuedBy moves).Sublist [current] ∧ failedBy moves = [] := by
  cases h with
  | known _ _ _ => exact ⟨rfl, List.nil_sublist _, rfl⟩
  | listed live _ _ level _ =>
    obtain ⟨hrefreshes, hissued, hfailed⟩ := listLevelMoves_of_ok hw live level
    exact ⟨hrefreshes, hissued ▸ .refl _, hfailed⟩

end StepsDown

namespace Passage

theorem trail (h : Passage fs target root current tree s track moves child tree' s')
    (hw : tree.WellFormed) : Trail fs tree s moves tree' s' := by
  induction h with
  | nil => exact .nil
  | cons step _ ih =>
    have hstep := step.trail hw
    exact hstep.append (ih (hstep.run.wellFormed hw))

theorem le (h : Passage fs target root current tree s track moves child tree' s')
    (hw : tree.WellFormed) : current ≤ child := by
  induction h with
  | nil => exact Nat.le_refl _
  | cons step _ ih =>
    exact Nat.le_of_lt (Nat.lt_of_lt_of_le (step.lower hw) (ih ((step.trail hw).run.wellFormed hw)))

theorem above (h : Passage fs target root current tree s track moves child tree' s')
    (hw : tree.WellFormed) (hlt : id < current) (hid : tree.node? id = some node) :
    tree'.node? id = some node := by
  induction h with
  | nil => exact hid
  | cons step _ ih =>
    exact ih ((step.trail hw).run.wellFormed hw) (Nat.lt_trans hlt (step.lower hw))
      (step.above hw hlt hid)

/-- What is refreshed on the way down are passed nodes, in their order, and nothing fails. -/
theorem made (h : Passage fs target root current tree s track moves child tree' s')
    (hw : tree.WellFormed) :
    moves.all Move.refreshes = true ∧ (issuedBy moves).Sublist track ∧ failedBy moves = [] := by
  induction h with
  | nil => exact ⟨rfl, .refl _, rfl⟩
  | cons step _ ih =>
    obtain ⟨hrefreshes, hissued, hfailed⟩ := step.made hw
    obtain ⟨hrefreshes', hissued', hfailed'⟩ := ih ((step.trail hw).run.wellFormed hw)
    rw [List.all_append, issuedBy_append, failedBy_append, hrefreshes, hrefreshes', hfailed,
      hfailed']
    exact ⟨rfl, hissued.append hissued', rfl⟩

theorem head? (h : Passage fs target root current tree s track moves child tree' s') :
    (track ++ [child]).head? = some current := by
  cases h <;> rfl

theorem isChain (h : Passage fs target root current tree s track moves child tree' s')
    (hw : tree.WellFormed) (hlast : last.WellFormed) {issued : List NodeId}
    (hevolves : Arena.Evolves issued tree'.arena last.arena)
    (hkept : ∀ id node, tree'.node? id = some node → current ≤ id → id < child →
      last.children id = tree'.children id) :
    (track ++ [child]).IsChain fun above below => last.wayTo? above target = some below := by
  induction h with
  | nil => exact .singleton _
  | @cons current next child tree mid tree' s s' s'' track moves later step rest ih =>
    have hmid := (step.trail hw).run.wellFormed hw
    have hrest := (rest.trail hmid).run
    have hlower := step.lower hw
    refine List.isChain_cons.mpr ⟨fun below hbelow => ?_, ?_⟩
    · obtain rfl : next = below := Option.some.inj (rest.head?.symm.trans hbelow)
      obtain ⟨node, hlive⟩ := hmid.linked.live (mem_children_of_wayTo? step.way)
      have hlater := rest.above hmid hlower hlive
      have hbefore : tree'.children current = mid.children current :=
        Arena.childrenOf_congr (hlater.trans hlive.symm)
      have hafter := hkept current node hlater (Nat.le_refl _)
        (Nat.lt_of_lt_of_le hlower (rest.le hmid))
      rw [wayTo?_of_children (hrest.wellFormed hmid) hlast hevolves hafter,
        wayTo?_of_children hmid (hrest.wellFormed hmid) (hrest.evolves hmid) hbefore, step.way]
    · exact ih hmid hevolves fun id node hlive hid =>
        hkept id node hlive (Nat.le_trans (Nat.le_of_lt hlower) hid)

end Passage

namespace Halts
variable {answer : Except Failure NodeId}

theorem trail (h : Halts fs target root current tree s moves answer last s')
    (hw : tree.WellFormed) : Trail fs tree s moves last s' := by
  have hasked {node : Node} {same : Bool} {world : σ}
      (hcompare : fs.sameDirectory s node.handle (.real target) = (same, world))
      {ending : List Move} (hrest : Trail fs tree world ending last s') :
      Trail fs tree s ending last s' := by
    refine .compared node.handle (.real target) ?_
    rwa [hcompare]
  have hlisting {world later : σ} {answer : Except Failure Unit} {listed : TreeView}
      (hlevel : listLevel fs current root tree world = (answer, listed, later)) :
      Trail fs tree world (listLevelMoves fs current root tree world) listed later := by
    have htrail := listLevel_trail hw fs current root world
    rwa [hlevel] at htrail
  cases h with
  | settled live same _ => exact hasked same (.single rfl ⟨_, live⟩)
  | resolved live same level =>
    exact hasked same ((hlisting level).append (.single rfl (listLevel_live hw live level)))
  | missed _ other level _ => exact hasked other (hlisting level)
  | failed _ compared _ level => exact hasked compared (hlisting level)

theorem issued (h : Halts fs target root current tree s moves answer last s')
    (hw : tree.WellFormed) : (issuedBy moves).Sublist [current] := by
  cases h with
  | settled _ _ _ => exact List.nil_sublist _
  | resolved live _ level =>
    rw [issuedBy_append, (listLevelMoves_of_ok hw live level).2.1]
    exact .refl _
  | missed live _ level _ =>
    rw [(listLevelMoves_of_ok hw live level).2.1]
  | failed live _ _ level =>
    rw [(listLevel_error hw live level).2.2]
    split <;> exact .refl _

theorem frame (h : Halts fs target root current tree s moves answer last s')
    (hw : tree.WellFormed) (hroot : root ∉ failedBy moves) : last.frame = tree.frame := by
  have hlisted {n : Node} {world later : σ} {listed : TreeView}
      (hlive : tree.node? current = some n)
      (hlevel : listLevel fs current root tree world = (.ok (), listed, later)) :
      listed.frame = tree.frame :=
    (listLevel_ok_trail hw hlevel).run.frame hw (refreshes_refreshMoves ..)
  cases h with
  | settled _ _ _ => rfl
  | resolved live _ level => exact (hlisted live level : TreeView.frame _ = _)
  | missed live _ level _ => exact hlisted live level
  | failed live _ _ level =>
    obtain ⟨_, hlast, hmoves⟩ := listLevel_error hw live level
    have hbelow : current ≠ root := by
      rintro rfl
      simp [hmoves, failedBy, Move.failed] at hroot
    rw [hlast, if_neg hbelow]
    rfl

theorem arrived (h : Halts fs target root current tree s moves (.ok id) last s')
    (hw : tree.WellFormed) :
    id = current ∧ failedBy moves = [] ∧ last.selected = some current ∧
      ∃ node, tree.node? current = some node ∧
        (fs.sameDirectory s node.handle (.real target)).1 = true := by
  cases h with
  | settled live same _ => exact ⟨rfl, rfl, rfl, _, live, by rw [same]⟩
  | resolved live same level =>
    rw [failedBy_append, (listLevelMoves_of_ok hw live level).2.2]
    exact ⟨rfl, rfl, rfl, _, live, by rw [same]⟩

theorem children_above (h : Halts fs target root current tree s moves answer last s')
    (hw : tree.WellFormed) (hroot : root ≤ id) (hlt : id < current)
    (hid : tree.node? id = some node) : last.children id = tree.children id := by
  have hlisted {n : Node} {world later : σ} {listed : TreeView}
      (hlive : tree.node? current = some n)
      (hlevel : listLevel fs current root tree world = (.ok (), listed, later)) :
      listed.children id = tree.children id :=
    Arena.childrenOf_congr ((node?_of_listLevel hw hlive hlevel hlt hid).trans hid.symm)
  cases h with
  | settled _ _ _ => exact children_settle ..
  | resolved live _ level => exact (children_settle ..).trans (hlisted live level)
  | missed live _ level _ => exact hlisted live level
  | failed live _ _ level =>
    have hbelow : current ≠ root := Nat.ne_of_gt (Nat.lt_of_le_of_lt hroot hlt)
    rw [(listLevel_error hw live level).2.1, if_neg hbelow]
    exact Arena.childrenOf_modify (fun _ => by rfl) id

end Halts

namespace Descent
variable {budget : Nat} {result : Option (Except Failure NodeId) × TreeView × σ}

theorem isChain (h : Descent fs target root budget current tree s track moves result)
    (hw : tree.WellFormed) (hroot : root ≤ current) :
    track.IsChain fun above below => result.2.1.wayTo? above target = some below := by
  cases h with
  | spent passage =>
    have hmid := (passage.trail hw).run.wellFormed hw
    exact (passage.isChain hw hmid (.refl _) fun _ _ _ _ _ => rfl).left_of_append
  | halted passage halts _ =>
    have hmid := (passage.trail hw).run.wellFormed hw
    have hrun := (halts.trail hmid).run
    exact passage.isChain hw (hrun.wellFormed hmid) (hrun.evolves hmid) fun id node hid hle hlt =>
      halts.children_above hmid (Nat.le_trans hroot hle) hlt hid

/-- The refreshes of a descent are of nodes that it comes to, in their order. -/
theorem issued (h : Descent fs target root budget current tree s track moves result)
    (hw : tree.WellFormed) : (issuedBy moves).Sublist track := by
  cases h with
  | spent passage => exact (passage.made hw).2.1
  | halted passage halts _ =>
    rw [issuedBy_append]
    exact (passage.made hw).2.1.append (halts.issued ((passage.trail hw).run.wellFormed hw))

theorem trail (h : Descent fs target root budget current tree s track moves result)
    (hw : tree.WellFormed) : Trail fs tree s moves result.2.1 result.2.2 := by
  cases h with
  | spent passage => exact passage.trail hw
  | halted passage halts _ =>
    exact (passage.trail hw).append (halts.trail ((passage.trail hw).run.wellFormed hw))

theorem frame (h : Descent fs target root budget current tree s track moves result)
    (hw : tree.WellFormed) (hroot : root ∉ failedBy moves) : result.2.1.frame = tree.frame := by
  cases h with
  | spent passage => exact (passage.trail hw).run.frame hw (passage.made hw).1
  | halted passage halts _ =>
    have hmid := (passage.trail hw).run.wellFormed hw
    rw [failedBy_append, List.mem_append, not_or] at hroot
    exact (halts.frame hmid hroot.2).trans
      ((passage.trail hw).run.frame hw (passage.made hw).1)

theorem rootPath? (h : Descent fs target root budget current tree s track moves result)
    (hw : tree.WellFormed) (hroot : root ∉ failedBy moves) :
    result.2.1.rootPath? = tree.rootPath? := by
  have hrun := (h.trail hw).run
  exact rootPath?_eq hw (hrun.wellFormed hw) (hrun.evolves hw) (root_of_frame (h.frame hw hroot))

theorem arrived {id : NodeId} (hw : tree.WellFormed)
    (h : Descent fs target root budget current tree s track moves result)
    (hok : result.1 = some (.ok id)) :
    failedBy moves = [] ∧ ∃ above first mid s' ending, track = above ++ [id] ∧
      Passage fs target root current tree s above first id mid s' ∧
      Halts fs target root id mid s' ending (.ok id) result.2.1 result.2.2 := by
  cases h with
  | spent passage => simp at hok
  | halted passage halts _ =>
    cases Option.some.inj hok
    obtain ⟨rfl, hfailed, _⟩ := halts.arrived ((passage.trail hw).run.wellFormed hw)
    rw [failedBy_append, (passage.made hw).2.2, hfailed]
    exact ⟨rfl, _, _, _, _, _, rfl, passage, halts⟩

theorem track_eq (h : Descent fs target root budget current tree s track moves result) :
    track = [] ∨ ∃ below, track = current :: below := by
  cases h with
  | spent passage => cases passage <;> simp
  | halted passage _ _ => cases passage <;> simp

end Descent

/-- A selection stays where it is, or binds the tree and descends. -/
theorem selectWithin_cases (hw : tree.WellFormed) (fs : FileSystem σ) (budget : Nat) (path : String)
    (s : σ) :
    (∃ id, alreadySelected fs (Path.normalize path) tree s =
        (some id, (selectWithin fs budget path tree s).2.2) ∧
      (selectWithin fs budget path tree s).1 = some (.ok id) ∧
      (selectWithin fs budget path tree s).2.1 = tree ∧
      selectTrack fs budget path tree s = [] ∧ selectMoves fs budget path tree s = []) ∨
    ∃ world moves, alreadySelected fs (Path.normalize path) tree s = (none, world) ∧
      let top := tree.volumes.rootOf (Path.normalize path)
      let bound := { (tree.ensureRoot top).1 with selected := none }
      bound.WellFormed ∧
      Descent fs (Path.normalize path) (tree.ensureRoot top).2 budget (tree.ensureRoot top).2 bound
        world (selectTrack fs budget path tree s) moves (selectWithin fs budget path tree s) ∧
      selectMoves fs budget path tree s = ensureRootMoves tree top ++ .deselect :: moves := by
  unfold selectWithin selectTrack selectMoves
  dsimp only
  obtain ⟨_ | id, world⟩ := alreadySelected fs (Path.normalize path) tree s
  · generalize tree.volumes.rootOf (Path.normalize path) = top
    have hbound := (binding_trail fs tree top world).run.wellFormed hw
    obtain ⟨node, hlive, _⟩ := hbound.root_live (root_ensureRoot tree top)
    exact .inr ⟨world, _, rfl, hbound, descend_descent hbound hlive .., rfl⟩
  · exact .inl ⟨id, rfl, rfl, rfl, rfl, rfl⟩

end LazyTree.TreeView
