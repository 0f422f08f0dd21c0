import LazyTree.Proofs.Failures
import Mathlib.Data.Set.Card

/-!
The loop of a recursive refresh, without a bound on its turns. It ends by itself: its queue grows
while it runs, but only by nodes that were open below the refreshed one before, and each of them has
one turn at most.
-/
namespace LazyTree

namespace TreeView
variable {σ : Type} {fs : FileSystem σ} {tree : TreeView} {s : σ} {c c' : Cascade σ}
variable {id next i : NodeId} {node : Node} {queue : List NodeId} {done : List Move}
variable {outcome : MergeOutcome}

/-- The state in which a recursive refresh enters its loop, its own node being listed. -/
def entry (fs : FileSystem σ) (id : NodeId) (tree : TreeView) (s : σ) (outcome : MergeOutcome) :
    Cascade σ :=
  let v := visit fs tree.lister id true false tree s
  ⟨outcome.cascade, (Totals.zero.add outcome).addChecked v.checked, v.tree, v.world⟩

/-- The states that the loop comes to, with all moves made up to then. -/
inductive Loops (fs : FileSystem σ) (id : NodeId) (tree : TreeView) (s : σ) :
    List Move → Cascade σ → Prop where
  | entered {outcome : MergeOutcome}
      (listed : (visit fs tree.lister id true false tree s).answer = .ok (.applied outcome)) :
      Loops fs id tree s (visitMoves fs tree.lister id true false tree s)
        (entry fs id tree s outcome)
  | turned {done : List Move} {c : Cascade σ} {next : NodeId} {queue : List NodeId}
      (before : Loops fs id tree s done c) (waiting : c.queue = next :: queue) :
      Loops fs id tree s (done ++ visitMoves fs tree.lister next true false c.tree c.world)
        (c.step fs tree.lister)

/-- What a recursive refresh comes to in the end, once its queue is empty. -/
inductive Ends (fs : FileSystem σ) (id : NodeId) (tree : TreeView) (s : σ) :
    Except Failure Totals × TreeView × σ → Prop where
  | failed {e : Failure}
      (answer : (visit fs tree.lister id true false tree s).answer = .error e) :
      Ends fs id tree s (.error e, (visit fs tree.lister id true false tree s).tree,
        (visit fs tree.lister id true false tree s).world)
  | stale (answer : (visit fs tree.lister id true false tree s).answer = .ok .stale) :
      Ends fs id tree s (.ok { Totals.zero with stale := true },
        (visit fs tree.lister id true false tree s).tree,
        (visit fs tree.lister id true false tree s).world)
  | drained {done : List Move} {last : Cascade σ} (loops : Loops fs id tree s done last)
      (drained : last.queue = []) : Ends fs id tree s (.ok last.totals, last.tree, last.world)

/-- The expanded nodes below `id`. -/
def openBelow (tree : TreeView) (id : NodeId) : Set NodeId :=
  {i | i ≠ id ∧ tree.arena.Reaches id i ∧ tree.arena.isExpanded i = true}

/-- A refresh of the node can be issued, and what is fetched for it counts. -/
def Ready (tree : TreeView) (id : NodeId) : Prop :=
  ∃ ticket issued, tree.issue id true = (.ok ticket, issued) ∧
    ∀ fetched, (issued.applyFetched ticket fetched).1 ≠ .ok .stale

/-- One of the moves made from `tree` on applied a listing that keeps `i` a child, and sent the loop
on to it. -/
def LedTo (tree : TreeView) (moves : List Move) (i : NodeId) : Prop :=
  ∃ earlier ticket listing outcome later,
    moves = earlier ++ .apply ticket (.ok listing) :: later ∧
    ((earlier.foldl act tree).applyFetched ticket (.ok listing)).1 = .ok (.applied outcome) ∧
    i ∈ outcome.cascade ∧ i ∈ tree.children ticket.node

theorem LedTo.append (h : tree.LedTo done i) (later : List Move) :
    tree.LedTo (done ++ later) i := by
  obtain ⟨earlier, ticket, listing, outcome, between, rfl, happly, hcascade, hlisted⟩ := h
  exact ⟨earlier, ticket, listing, outcome, between ++ later, by simp, happly, hcascade, hlisted⟩

theorem ready_of_live (hw : tree.WellFormed) (hlive : tree.arena.get? id = some node) :
    tree.Ready id := by
  refine ⟨_, _, issue_of_live hlive true, fun fetched => ?_⟩
  have hself := get?_bumped hlive
  cases fetched with
  | error e => simp [applyFetched, node?, hself]
  | ok listing =>
    obtain ⟨outcome, _, _, happly, _⟩ := @applyFetched_current _ _
      ⟨id, node.generation + 1, node.handle, true⟩ (hw.bumped id) hself rfl listing
    simp [happly]

theorem visitMoves_of_applied (hw : tree.WellFormed) (hlive : tree.arena.get? id = some node)
    {lister : Lister} {recursive always : Bool}
    (h : (visit fs lister id recursive always tree s).answer = .ok (.applied outcome)) :
    ∃ ticket listing checks, ticket.node = id ∧
      visitMoves fs lister id recursive always tree s =
        .issue id recursive :: .apply ticket (.ok listing) :: checks ∧
      ((tree.bumped id).applyFetched ticket (.ok listing)).1 = .ok (.applied outcome) := by
  have hself := get?_bumped hlive
  unfold visit at h
  unfold visitMoves
  simp only [issue_of_live hlive] at h ⊢
  generalize lister.fetch fs ⟨id, node.generation + 1, node.handle, recursive⟩ s = fetched at h ⊢
  obtain ⟨e | listing, s'⟩ := fetched
  · simp [applyFetched, node?, hself] at h
  · refine ⟨_, listing, _, rfl, rfl, ?_⟩
    obtain ⟨merged, _, _, happly, _⟩ := @applyFetched_current _ _
      ⟨id, node.generation + 1, node.handle, recursive⟩ (hw.bumped id) hself rfl listing
    simp only [happly, visitChecks_answer, Except.ok.injEq, Application.applied.injEq] at h ⊢
    exact h

theorem ledTo_of_visit {now : TreeView} (hacted : now = done.foldl act tree)
    (hw : now.WellFormed) (hlive : now.arena.get? next = some node) {lister : Lister}
    {always : Bool}
    (h : (visit fs lister next true always now s).answer = .ok (.applied outcome))
    (hi : i ∈ outcome.cascade) (hc : i ∈ tree.children next) :
    tree.LedTo (done ++ visitMoves fs lister next true always now s) i := by
  obtain ⟨ticket, listing, checks, rfl, hmoves, happly⟩ := visitMoves_of_applied hw hlive h
  refine ⟨done ++ [.issue ticket.node true], ticket, listing, outcome, checks, ?_, ?_, hi, hc⟩
  · rw [hmoves, List.append_assoc]
    rfl
  · rw [List.foldl_append, ← hacted, List.foldl_cons, List.foldl_nil, act, issue_snd]
    exact happly

theorem issue_of_visitMoves (hlive : tree.arena.get? id = some node) {lister : Lister}
    {recursive always : Bool} {first rest : List Move} {again : Bool}
    (h : visitMoves fs lister id recursive always tree s = first ++ .issue i again :: rest) :
    first = [] ∧ i = id := by
  have hissued := issuedBy_visitMoves hlive fs lister recursive always s
  rw [h, issuedBy_append] at hissued
  cases first with
  | nil => exact ⟨rfl, List.head_eq_of_cons_eq hissued⟩
  | cons move first =>
    have hmove : move = .issue id recursive := by
      simp only [visitMoves, issue_of_live hlive, List.cons_append, List.cons.injEq] at h
      exact h.1.symm
    have hlength := congrArg List.length hissued
    simp [issuedBy, hmove, Move.issued] at hlength

/-- What holds each time that the loop looks at its queue. -/
structure InTurn (tree : TreeView) (id : NodeId) (done : List Move) (c : Cascade σ) : Prop where
  walk : ∃ start, Walk id start (failedBy done) (issuedBy done) c.queue c.tree
  spared : Spared tree (failedBy done) (issuedBy done) c.queue c.tree
  acted : c.tree = done.foldl act tree
  opened : ∀ i ∈ issuedBy done ++ c.queue, i ≠ id → i ∈ tree.openBelow id
  stale : c.totals.stale = false
  counted : c.totals.nodes + c.totals.failed = (issuedBy done).length
  led : ∀ i ∈ c.queue, tree.LedTo done i
  ordered : ∀ first i rest, done = first ++ .issue i true :: rest → i ≠ id → tree.LedTo first i

theorem inTurn_entry (hw : tree.WellFormed) (hlive : tree.arena.get? id = some node)
    (h : (visit fs tree.lister id true false tree s).answer = .ok (.applied outcome)) :
    InTurn tree id (visitMoves fs tree.lister id true false tree s)
      (entry fs id tree s outcome) := by
  have hv := stepped_of_visit hw hlive h
  obtain ⟨_, hfailed⟩ := applied_of_visit hw hlive h
  have hissued := issuedBy_visitMoves hlive fs tree.lister true false s
  constructor
  case walk => exact ⟨_, hfailed ▸ hissued ▸ hv.walk hw⟩
  case spared => exact hfailed ▸ hissued ▸ Spared.first hw hlive h
  case acted => exact (visit_run ..).last_eq
  case opened =>
    intro i hi hne
    rw [hissued] at hi
    obtain ⟨_, hlisted, hexpanded⟩ := hv.of_queued hw ((List.mem_cons.mp hi).resolve_left hne)
    obtain ⟨n, hn, _⟩ := Arena.live_of_isExpanded hexpanded
    refine ⟨hne, .of_child hlive ?_ (.self hn), hexpanded⟩
    rwa [TreeView.children, Arena.childrenOf_of_live hlive] at hlisted
  case stale => rfl
  case counted => rw [hissued]; rfl
  case led =>
    intro i hi
    exact @ledTo_of_visit _ _ _ _ _ _ _ [] _ _ rfl hw hlive _ _ h hi (hv.of_queued hw hi).2.1
  case ordered =>
    intro first i rest hmoves hne
    exact absurd (issue_of_visitMoves hlive hmoves).2 hne

theorem step_cases (hw : c.tree.WellFormed) (hlive : c.tree.arena.get? next = some node)
    (hqueue : c.queue = next :: queue) (fs : FileSystem σ) (lister : Lister) :
    (c.step fs lister).totals.stale = c.totals.stale ∧
      ((c.step fs lister).queue = queue ∨
        ∃ outcome, (visit fs lister next true false c.tree c.world).answer =
            .ok (.applied outcome) ∧ (c.step fs lister).queue = queue ++ outcome.cascade) := by
  have hstep := @step_of_live _ fs lister _ _ _ _ hqueue hlive
  cases hanswer : (visit fs lister next true false c.tree c.world).answer with
  | error e =>
    simp only [hanswer] at hstep
    rw [hstep]
    exact ⟨rfl, .inl rfl⟩
  | ok application =>
    obtain ⟨⟨outcome, rfl⟩, _⟩ := applied_of_visit hw hlive hanswer
    simp only [hanswer] at hstep
    rw [hstep]
    exact ⟨rfl, .inr ⟨outcome, rfl, rfl⟩⟩

/-- What a turn leads to was an open child of its node all along. -/
theorem InTurn.of_cascade (h : InTurn tree id done c) (hw : tree.WellFormed)
    (hqueue : c.queue = next :: queue) {lister : Lister}
    (hanswer : (visit fs lister next true false c.tree c.world).answer = .ok (.applied outcome))
    (hi : i ∈ outcome.cascade) : i ∈ tree.children next ∧ i ∈ tree.openBelow id := by
  obtain ⟨start, hwalk⟩ := h.walk
  have hspared := h.spared
  rw [hqueue] at hwalk hspared
  have hwaiting : next ∈ issuedBy done ++ next :: queue :=
    List.mem_append_right _ List.mem_cons_self
  obtain ⟨node, hlive⟩ := hwalk.live next hwaiting
  have hne : id ≠ next := hwalk.visited_ne (List.mem_append_left _ hwalk.top_visited)
  have hstays := hspared.stays next (List.mem_append_right _ List.mem_cons_self)
  obtain ⟨_, hreached, _⟩ := h.opened next (hqueue ▸ hwaiting) hne.symm
  obtain ⟨_, hlisted, hexpanded⟩ :=
    (stepped_of_visit hwalk.wellFormed hlive hanswer).of_queued hwalk.wellFormed hi
  have hlower := hwalk.wellFormed.linked.lower hlisted
  rw [hstays.children_eq] at hlisted
  rw [(hstays.of_child hw hlisted).isExpanded_eq] at hexpanded
  obtain ⟨lists, hlists, hmem⟩ := Arena.live_of_mem_childrenOf hlisted
  obtain ⟨n, hn, _⟩ := Arena.live_of_isExpanded hexpanded
  exact ⟨hlisted, Nat.ne_of_gt (Nat.lt_of_le_of_lt (hwalk.top_le next hwaiting) hlower),
    .child hreached hlists hmem hn, hexpanded⟩

theorem ordered_append (hlive : c.tree.arena.get? next = some node) {lister : Lister}
    (hled : tree.LedTo done next)
    (hordered : ∀ first i rest, done = first ++ .issue i true :: rest → i ≠ id → tree.LedTo first i)
    (first : List Move) (i : NodeId) (rest : List Move)
    (hmoves : done ++ visitMoves fs lister next true false c.tree c.world =
      first ++ .issue i true :: rest) (hne : i ≠ id) : tree.LedTo first i := by
  rcases List.append_eq_append_iff.mp hmoves with ⟨more, rfl, hvisit⟩ | ⟨more, hdone, hrest⟩
  · obtain ⟨rfl, rfl⟩ := issue_of_visitMoves hlive hvisit
    exact hled.append []
  · cases more with
    | nil =>
      obtain ⟨_, rfl⟩ := @issue_of_visitMoves _ _ _ _ _ _ _ hlive _ _ _ [] rest _ hrest.symm
      rw [List.append_nil] at hdone
      exact hdone ▸ hled
    | cons move more =>
      obtain ⟨rfl, _⟩ := List.cons.inj hrest
      exact hordered first i more hdone hne

theorem InTurn.step (h : InTurn tree id done c) (hw : tree.WellFormed)
    (hqueue : c.queue = next :: queue) :
    InTurn tree id (done ++ visitMoves fs tree.lister next true false c.tree c.world)
      (c.step fs tree.lister) := by
  obtain ⟨start, hwalk⟩ := h.walk
  have hspared := h.spared
  rw [hqueue] at hwalk hspared
  obtain ⟨node, hlive⟩ := hwalk.live next (List.mem_append_right _ List.mem_cons_self)
  have hissued := issuedBy_visitMoves hlive fs tree.lister true false c.world
  have hvisited : issuedBy (done ++ visitMoves fs tree.lister next true false c.tree c.world) =
      issuedBy done ++ [next] := by
    rw [issuedBy_append, hissued]
  obtain ⟨hwalk', hspared', _, hvisits⟩ :=
    Walk.advance (motive := fun failed visited queue now _ => Spared tree failed visited queue now)
      (Spared.kept hw fs tree.lister) hqueue hwalk hspared
  obtain ⟨hstale, hnext⟩ := step_cases hwalk.wellFormed hlive hqueue fs tree.lister
  have hcascade {outcome : MergeOutcome} {i : NodeId}
      (hanswer : (visit fs tree.lister next true false c.tree c.world).answer =
        .ok (.applied outcome)) (hi : i ∈ outcome.cascade) :=
    h.of_cascade hw hqueue hanswer hi
  constructor
  case walk =>
    refine ⟨start, ?_⟩
    rw [failedBy_append, hvisited]
    exact hwalk'
  case spared =>
    rw [failedBy_append, hvisited]
    exact hspared'
  case acted =>
    have htree : (c.step fs tree.lister).tree =
        (visit fs tree.lister next true false c.tree c.world).tree := by
      simp only [Cascade.step, hqueue, refreshNode_tree]
    rw [htree, (visit_run ..).last_eq, List.foldl_append, ← h.acted]
  case opened =>
    intro i hi hne
    rw [hvisited] at hi
    have hold (hi : i ∈ issuedBy done ++ next :: queue) : i ∈ tree.openBelow id :=
      h.opened i (hqueue ▸ hi) hne
    rcases hnext with heq | ⟨outcome, hanswer, heq⟩
    · exact hold (by simpa [heq] using hi)
    · rw [heq, ← List.append_assoc] at hi
      rcases List.mem_append.mp hi with hi | hi
      · exact hold (by simpa using hi)
      · exact (hcascade hanswer hi).2
  case stale => exact hstale.trans h.stale
  case counted => rw [hvisits, h.counted, hvisited, List.length_append, List.length_singleton]
  case led =>
    intro i hi
    have hold (hi : i ∈ queue) : tree.LedTo
        (done ++ visitMoves fs tree.lister next true false c.tree c.world) i :=
      (h.led i (hqueue ▸ List.mem_cons_of_mem next hi)).append _
    rcases hnext with heq | ⟨outcome, hanswer, heq⟩
    · exact hold (heq ▸ hi)
    · rcases List.mem_append.mp (heq ▸ hi) with hi | hi
      · exact hold hi
      · exact ledTo_of_visit h.acted hwalk.wellFormed hlive hanswer hi (hcascade hanswer hi).1
  case ordered => exact ordered_append hlive (h.led next (hqueue ▸ List.mem_cons_self)) h.ordered

theorem Loops.inTurn (h : Loops fs id tree s done c) (hw : tree.WellFormed)
    (hlive : tree.arena.get? id = some node) : InTurn tree id done c := by
  induction h with
  | entered listed => exact inTurn_entry hw hlive listed
  | turned _ waiting ih => exact ih.step hw waiting

theorem InTurn.ready (h : InTurn tree id done c) (hqueue : c.queue = next :: queue) :
    c.tree.Ready next := by
  obtain ⟨start, hwalk⟩ := h.walk
  obtain ⟨node, hlive⟩ := hwalk.live next (by simp [hqueue])
  exact ready_of_live hwalk.wellFormed hlive

/-- The turns of the loop are those that the cascade takes, whatever their number. -/
theorem Loops.runs (h : Loops fs id tree s done c) (count : Nat) :
    Loops fs id tree s (done ++ cascadeMoves fs tree.lister count c)
      (Cascade.run fs tree.lister count c) := by
  induction count generalizing done c with
  | zero => simpa [cascadeMoves, Cascade.run] using h
  | succ count ih =>
    cases hqueue : c.queue with
    | nil => simpa [cascadeMoves_nil hqueue, cascade_of_empty fs tree.lister _ hqueue] using h
    | cons next queue =>
      have hrest := ih (h.turned hqueue)
      rw [List.append_assoc] at hrest
      simpa [cascadeMoves_cons hqueue, Cascade.run, hqueue] using hrest

theorem drained_of_run (hw : tree.WellFormed) (hlive : tree.arena.get? id = some node)
    (h : (visit fs tree.lister id true false tree s).answer = .ok (.applied outcome)) :
    (Cascade.run fs tree.lister (visit fs tree.lister id true false tree s).tree.size
      (entry fs id tree s outcome)).queue = [] :=
  (Walk.run (motive := fun _ _ _ _ _ => True) (fun _ _ _ => ⟨fun _ => trivial, fun _ => trivial⟩)
    ((stepped_of_visit hw hlive h).walk hw) trivial (Nat.le_add_right _ _)).1

/-- From wherever the loop is it comes to the one state in which the cascade's queue is empty. -/
theorem Loops.run_eq (h : Loops fs id tree s done c)
    (hanswer : (visit fs tree.lister id true false tree s).answer = .ok (.applied outcome))
    {count : Nat}
    (hempty : (Cascade.run fs tree.lister count (entry fs id tree s outcome)).queue = []) :
    ∃ rest, Cascade.run fs tree.lister rest c =
      Cascade.run fs tree.lister count (entry fs id tree s outcome) := by
  induction h with
  | @entered outcome' listed =>
    rw [listed, Except.ok.injEq, Application.applied.injEq] at hanswer
    exact ⟨count, by rw [hanswer]⟩
  | @turned done c next queue _ waiting ih =>
    obtain ⟨rest, hrest⟩ := ih
    cases rest with
    | zero =>
      rw [← hrest] at hempty
      exact absurd (waiting.symm.trans hempty) (List.cons_ne_nil next queue)
    | succ rest => exact ⟨rest, by simpa [Cascade.run, waiting] using hrest⟩

theorem Loops.listed (h : Loops fs id tree s done c) : ∃ outcome,
    (visit fs tree.lister id true false tree s).answer = .ok (.applied outcome) := by
  induction h with
  | entered listed => exact ⟨_, listed⟩
  | turned _ _ ih => exact ih

theorem ends_iff (hw : tree.WellFormed) (hlive : tree.arena.get? id = some node)
    {result : Except Failure Totals × TreeView × σ} :
    Ends fs id tree s result ↔ result = refresh fs id true tree s := by
  rw [refresh, refreshWith_eq]
  cases hanswer : (visit fs tree.lister id true false tree s).answer with
  | error e =>
    simp only [hanswer]
    constructor
    · intro h
      cases h with
      | failed answer =>
        obtain rfl := Except.error.inj (hanswer.symm.trans answer)
        rfl
      | stale answer => cases hanswer.symm.trans answer
      | drained loops _ =>
        obtain ⟨outcome, listed⟩ := loops.listed
        cases hanswer.symm.trans listed
    · rintro rfl
      exact .failed hanswer
  | ok application =>
    obtain ⟨⟨outcome, rfl⟩, _⟩ := applied_of_visit hw hlive hanswer
    simp only [hanswer]
    have hempty := drained_of_run hw hlive hanswer
    constructor
    · intro h
      cases h with
      | failed answer => cases hanswer.symm.trans answer
      | stale answer => cases hanswer.symm.trans answer
      | drained loops drained =>
        obtain ⟨rest, hrest⟩ := loops.run_eq hanswer hempty
        rw [cascade_of_empty fs tree.lister rest drained] at hrest
        rw [hrest]
        rfl
    · rintro rfl
      exact .drained ((Loops.entered hanswer).runs _) hempty

theorem refresh_cases (hw : tree.WellFormed) (hlive : tree.arena.get? id = some node)
    (fs : FileSystem σ) (s : σ) :
    (∃ e, (refresh fs id true tree s).1 = .error e ∧
      refreshMoves fs id true false tree s = visitMoves fs tree.lister id true false tree s) ∨
    ∃ last : Cascade σ, (refresh fs id true tree s).1 = .ok last.totals ∧
      InTurn tree id (refreshMoves fs id true false tree s) last := by
  rw [refresh, refreshWith_eq, refreshMoves, afterVisitMoves]
  cases hanswer : (visit fs tree.lister id true false tree s).answer with
  | error e =>
    refine .inl ⟨e, ?_, List.append_nil _⟩
    simp only [hanswer]
  | ok application =>
    obtain ⟨⟨outcome, rfl⟩, _⟩ := applied_of_visit hw hlive hanswer
    simp only [hanswer]
    exact .inr ⟨_, rfl, ((Loops.entered hanswer).runs _).inTurn hw hlive⟩

theorem finite_openBelow (tree : TreeView) (id : NodeId) : (tree.openBelow id).Finite := by
  refine (Set.finite_lt_nat tree.arena.nextId).subset fun i hi => ?_
  obtain ⟨_, hlive, _⟩ := Arena.live_of_isExpanded hi.2.2
  exact (Arena.id_bounds hlive).2

theorem length_le_ncard {ids : List NodeId} (hnodup : ids.Nodup)
    (hopen : ∀ i ∈ ids, i ∈ tree.openBelow id) : ids.length ≤ (tree.openBelow id).ncard := by
  rw [← List.toFinset_card_of_nodup hnodup, ← Set.ncard_coe_finset]
  exact Set.ncard_le_ncard (fun i hi => hopen i (List.mem_toFinset.mp hi)) (finite_openBelow ..)

/-- The moves of a recursive refresh: each node has its turn once, and each but the first was open
before and was led to. -/
theorem turns_of_refresh (hw : tree.WellFormed) (hlive : tree.arena.get? id = some node)
    (fs : FileSystem σ) (s : σ) :
    let moves := refreshMoves fs id true false tree s
    (∃ cascaded, issuedBy moves = id :: cascaded) ∧ (issuedBy moves).Nodup ∧
      (∀ i ∈ issuedBy moves, i ≠ id → i ∈ tree.openBelow id) ∧
      ∀ first i rest, moves = first ++ .issue i true :: rest → i ≠ id → tree.LedTo first i := by
  have hissued := issuedBy_visitMoves hlive fs tree.lister true false s
  intro moves
  have hfirst : ∃ cascaded, issuedBy moves = id :: cascaded :=
    ⟨_, (issuedBy_append ..).trans (congrArg (· ++ issuedBy _) hissued)⟩
  rcases refresh_cases hw hlive fs s with ⟨_, _, hmoves⟩ | ⟨last, _, h⟩
  · rw [show moves = _ from hmoves] at hfirst ⊢
    refine ⟨hfirst, ?_, fun i hi hne => ?_, fun first i rest hsplit hne => ?_⟩
    · rw [hissued]
      exact List.nodup_singleton id
    · rw [hissued] at hi
      exact absurd (List.mem_singleton.mp hi) hne
    · exact absurd (issue_of_visitMoves hlive hsplit).2 hne
  · obtain ⟨_, hwalk⟩ := h.walk
    exact ⟨hfirst, (List.nodup_append.mp hwalk.nodup).1,
      fun i hi => h.opened i (List.mem_append_left _ hi), h.ordered⟩

end TreeView

namespace Session
variable {σ : Type}

/-- Whatever the filesystem answers, a recursive refresh ends; it refreshes each node once at most,
and besides its own node only nodes that were open below it, each after its parent was listed. -/
theorem run_refresh_ends (fs : FileSystem σ) (filter : NameFilter) (volumes : VolumeMap) (world : σ)
    (actions : List (Action σ)) :
    let x := (start filter volumes world).run fs actions
    ∀ id node, x.tree.node? id = some node →
      let moves := x.tree.refreshMoves fs id true false x.world
      TreeView.Trail fs x.tree x.world moves (x.tree.refresh fs id true x.world).2.1
        (x.tree.refresh fs id true x.world).2.2 ∧
      (∀ result, x.tree.Ends fs id x.world result ↔
        result = x.tree.refresh fs id true x.world) ∧
      (issuedBy moves).Nodup ∧
      (∀ i ∈ issuedBy moves, i ≠ id → i ∈ x.tree.openBelow id) ∧
      x.tree.Ready id ∧
      (∀ done c next queue, x.tree.Loops fs id x.world done c → c.queue = next :: queue →
        c.tree.Ready next) ∧
      (∀ totals, (x.tree.refresh fs id true x.world).1 = .ok totals →
        totals.stale = false ∧
        ∃ cascaded, issuedBy moves = id :: cascaded ∧
          totals.nodes + totals.failed = 1 + cascaded.length ∧
          cascaded.length ≤ (x.tree.openBelow id).ncard) ∧
      ∀ first i rest, moves = first ++ .issue i true :: rest → i ≠ id → x.tree.LedTo first i := by
  intro x id node hlive moves
  have hw : x.tree.WellFormed := wellFormed_run (wellFormed_start filter volumes world) fs actions
  obtain ⟨⟨cascaded, hfirst⟩, hnodup, hopened, hordered⟩ :=
    TreeView.turns_of_refresh hw hlive fs x.world
  refine ⟨TreeView.refresh_trail hw fs id true x.world, fun result => TreeView.ends_iff hw hlive,
    hnodup, hopened, TreeView.ready_of_live hw hlive, ?_, ?_, hordered⟩
  · intro done c next queue hloops
    exact (hloops.inTurn hw hlive).ready
  · intro totals hok
    rcases TreeView.refresh_cases hw hlive fs x.world with ⟨e, he, _⟩ | ⟨last, hlast, h⟩
    · cases hok.symm.trans he
    · obtain rfl := Except.ok.inj (hok.symm.trans hlast)
      have hcounted := h.counted
      rw [hfirst] at hcounted
      obtain ⟨hnot, hnodup⟩ := List.nodup_cons.mp (hfirst ▸ hnodup)
      refine ⟨h.stale, cascaded, hfirst, hcounted.trans (Nat.add_comm ..),
        TreeView.length_le_ncard hnodup fun i hi => hopened i ?_ ?_⟩
      · rw [hfirst]
        exact List.mem_cons_of_mem id hi
      · rintro rfl
        exact hnot hi

/-- Two open children, one of which cannot be listed any more. -/
theorem twoBranches_refresh_ends :
    let x := (start .everything ⟨"/net", [], "", "", [], []⟩ twoBranches).run Scripted.fileSystem
      [.operate (.select "/a" 2), .operate (.expand 2), .operate (.expand 3),
        .drift { twoBranches with failures := [("/a/b", .permissionDenied)] }]
    (x.tree.refresh Scripted.fileSystem 1 true x.world).1 = .ok ⟨2, 0, 0, 1, false, 1⟩ ∧
      ∃ cascaded,
        issuedBy (x.tree.refreshMoves Scripted.fileSystem 1 true false x.world) = 1 :: cascaded ∧
        2 + 1 = 1 + cascaded.length ∧ cascaded.length ≤ (x.tree.openBelow 1).ncard :=
  ⟨by decide +kernel,
    ((run_refresh_ends Scripted.fileSystem .everything ⟨"/net", [], "", "", [], []⟩ twoBranches
      [.operate (.select "/a" 2), .operate (.expand 2), .operate (.expand 3),
        .drift { twoBranches with failures := [("/a/b", .permissionDenied)] }]
      1 ⟨"/a", .real "/a", none, [2, 3], true, true, 1⟩
      (by decide +kernel)).2.2.2.2.2.2.1 ⟨2, 0, 0, 1, false, 1⟩ (by decide +kernel)).2⟩

end Session

end LazyTree
