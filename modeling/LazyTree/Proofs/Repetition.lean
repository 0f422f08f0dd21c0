import LazyTree.Proofs.Laziness
import LazyTree.Proofs.Resting

/-!
A refresh repeated while the filesystem keeps still. The first one leaves what it listed at rest, so
that the second one goes the same way wherever anything is shown, fails where the first one failed,
and changes nothing.
-/
namespace LazyTree

theorem Totals.first_of_unchanged {outcome : MergeOutcome} (hinserted : outcome.inserted = 0)
    (hremoved : outcome.removed = 0) (checked : Nat) :
    let totals := (zero.add outcome).addChecked checked
    totals.inserted = 0 ∧ totals.removed = 0 ∧ totals.failed = 0 :=
  ⟨(Nat.zero_add _).trans hinserted, (Nat.zero_add _).trans hremoved, rfl⟩

namespace TreeView
variable {σ : Type} {fs : FileSystem σ} {s t u : σ} {lister : Lister} {tree tree' known : TreeView}
variable {top id i : NodeId} {node : Node} {recursive always : Bool} {outcome : MergeOutcome}
variable {failed visited queue missed covered : List NodeId} {start : Arena} {totals : Totals}

theorem finding?_of_failed (hs : fs.Steady s) (ht : fs.Asked s t) (hw : tree.WellFormed)
    (hlive : tree.arena.get? id = some node) {e : Failure}
    (h : (visit fs lister id recursive always tree t).answer = .error e) :
    ∃ path, tree.finding? fs lister s id = some (path, none) := by
  rcases visit_of_live hw hlive fs lister recursive always t with
    ⟨e, hfetch, _⟩ | ⟨_, _, _, _, _, _, _, heq⟩
  · rw [fetchVisible_steady hs ht] at hfetch
    exact ⟨_, (finding?_of_live hlive).trans (congrArg some (Lister.finding_of_error hfetch))⟩
  · simp [heq, visitChecks_answer] at h

theorem finding?_of_applied (hs : fs.Steady s) (ht : fs.Asked s t) (hw : tree.WellFormed)
    (hlive : tree.arena.get? id = some node)
    (h : (visit fs lister id recursive always tree t).answer = .ok (.applied outcome)) :
    ∃ path entries, tree.finding? fs lister s id = some (path, some entries) := by
  rcases visit_of_live hw hlive fs lister recursive always t with
    ⟨e, _, heq⟩ | ⟨listing, _, _, _, hfetch, _, _, _⟩
  · simp [heq] at h
  · rw [fetchVisible_steady hs ht] at hfetch
    exact ⟨_, _, (finding?_of_live hlive).trans (congrArg some (Lister.finding_of_ok hfetch))⟩

theorem isExpanded_visit (hw : tree.WellFormed) (hlive : tree.arena.get? id = some node)
    (hopen : tree.arena.isExpanded id = true) (fs : FileSystem σ) (lister : Lister)
    (recursive always : Bool) (t : σ) :
    let after := (visit fs lister id recursive always tree t).tree
    after.arena.isExpanded id = true ∨ after.children id = [] := by
  intro after
  rcases visit_of_live hw hlive fs lister recursive always t with
    ⟨e, _, heq⟩ | ⟨listing, outcome, listed, children, _, ha, _, heq⟩
  · left
    simp only [after, heq]
    exact (isExpanded_bumped tree id id).trans hopen
  · have hlooks : listed.LooksAs fs lister t after := by
      simp only [after, heq]
      exact looksAs_visitChecks _ _ _ _ _
    have hlisted : listed.children id = children := Arena.childrenOf_of_live ha.relisted.self
    rw [hlooks.isExpanded_eq, hlooks.children_eq, hlisted,
      Arena.isExpanded_of_live ha.relisted.self]
    rw [Arena.isExpanded_of_live hlive] at hopen
    cases children with
    | nil => exact .inr rfl
    | cons _ _ => exact .inl (by simp [Node.relisted, hopen])

/-- What a recursive refresh of `top` has settled while it is at work: the listed nodes rest, the
failed ones cannot be listed, and what was not found empty is open. -/
structure Settled (fs : FileSystem σ) (lister : Lister) (s : σ) (top : NodeId)
    (failed visited queue : List NodeId) (tree : TreeView) (t : σ) : Prop where
  asked : fs.Asked s t
  queue_open : ∀ i ∈ queue, tree.arena.isExpanded i = true
  top_listed : top ∈ visited ∧ top ∉ failed
  rests : ∀ i ∈ visited, i ∉ failed → tree.Rests fs lister s i
  missing : ∀ i ∈ failed, ∃ path, tree.finding? fs lister s i = some (path, none)
  shown : ∀ i ∈ visited,
    i = top ∨ tree.arena.isExpanded i = true ∨ i ∉ failed ∧ tree.children i = []

namespace Settled

theorem first (hs : fs.Steady s) (hfs : fs.ResolvesInPlace) (hw : tree.WellFormed)
    (hlive : tree.arena.get? id = some node)
    (happlied : (visit fs lister id true false tree s).answer = .ok (.applied outcome)) :
    let v := visit fs lister id true false tree s
    Settled fs lister s id [] [id] outcome.cascade v.tree v.world := by
  constructor
  case asked => exact asked_visit .nothing hw hlive lister true false
  case queue_open => exact fun i hi => expanded_of_queued hw hlive happlied hi
  case top_listed => simp
  case rests =>
    intro i hi _
    obtain rfl := List.mem_singleton.mp hi
    exact rests_of_visit hs .nothing hfs hw hlive happlied
  case missing => simp
  case shown => exact fun i hi => .inl (List.mem_singleton.mp hi)

theorem fail (h : Settled fs lister s top failed visited (id :: queue) tree t) (hs : fs.Steady s)
    {first : NodeId} (hwalk : Walk first start failed visited (id :: queue) tree)
    (hlive : tree.arena.get? id = some node) {e : Failure}
    (he : (visit fs lister id true false tree t).answer = .error e) :
    let v := visit fs lister id true false tree t
    Settled fs lister s top (failed ++ [id]) (visited ++ [id]) queue v.tree v.world := by
  intro v
  have hw := hwalk.wellFormed
  have hlooks : tree.LooksAs fs lister s v.tree := by
    rw [(failed_of_visit hw hlive he).1]
    exact looksAs_bumped tree id
  have hid : id ∉ visited := fun hid =>
    List.disjoint_of_nodup_append hwalk.nodup hid List.mem_cons_self
  constructor
  case asked => exact asked_visit h.asked hw hlive lister true false
  case queue_open => exact (kept_expanded fs lister hwalk hlive h.queue_open).1 he
  case top_listed =>
    have hne : top ≠ id := fun heq => hid (heq ▸ h.top_listed.1)
    simp [h.top_listed, hne]
  case rests =>
    intro i hi hnot
    simp only [List.mem_append, List.mem_singleton, not_or] at hi hnot
    exact (h.rests i (hi.resolve_right hnot.2) hnot.1).looksAs (root_visit hw ..) hlooks
  case missing =>
    intro i hi
    rw [hlooks.finding?_eq]
    rcases List.mem_append.mp hi with hi | hi
    · exact h.missing i hi
    · obtain rfl := List.mem_singleton.mp hi
      exact finding?_of_failed hs h.asked hw hlive he
  case shown =>
    intro i hi
    rw [hlooks.isExpanded_eq, hlooks.children_eq]
    rcases List.mem_append.mp hi with hi | hi
    · have hne : i ≠ id := fun heq => hid (heq ▸ hi)
      refine (h.shown i hi).imp_right (.imp_right fun ⟨hnot, hempty⟩ => ⟨?_, hempty⟩)
      simp [hnot, hne]
    · obtain rfl := List.mem_singleton.mp hi
      exact .inr (.inl (h.queue_open i List.mem_cons_self))

theorem step (h : Settled fs lister s top failed visited (id :: queue) tree t) (hs : fs.Steady s)
    (hfs : fs.ResolvesInPlace) {first : NodeId}
    (hwalk : Walk first start failed visited (id :: queue) tree)
    (hlive : tree.arena.get? id = some node)
    (happlied : (visit fs lister id true false tree t).answer = .ok (.applied outcome)) :
    let v := visit fs lister id true false tree t
    Settled fs lister s top failed (visited ++ [id]) (queue ++ outcome.cascade) v.tree v.world := by
  intro v
  have hw := hwalk.wellFormed
  have hv := stepped_of_visit hw hlive happlied
  have hslot {i : NodeId} (hi : i ∈ visited) : v.tree.arena.get? i = tree.arena.get? i := by
    obtain ⟨was, hwas⟩ := hwalk.live i (List.mem_append_left _ hi)
    exact (hwalk.kept hv (List.mem_append_left _ hi) hwas).trans hwas.symm
  constructor
  case asked => exact asked_visit h.asked hw hlive lister true false
  case queue_open => exact (kept_expanded fs lister hwalk hlive h.queue_open).2 happlied
  case top_listed => exact ⟨List.mem_append_left _ h.top_listed.1, h.top_listed.2⟩
  case rests =>
    intro i hi hnot
    rcases List.mem_append.mp hi with hi | hi
    · refine (h.rests i hi hnot).congr (root_visit hw ..) (by rw [hslot hi]) fun child hc => ?_
      by_cases hchild : child = id
      · rw [hchild]
        exact finding?_visit hs h.asked hfs hw hlive lister true false
      · obtain ⟨was, hwas, _⟩ := hw.linked.owned hc
        have hnow := hv.untouched hwas (hwalk.not_under_next hchild (.inr ⟨i, hi, hc⟩))
        rw [finding?_of_live hnow, finding?_of_live hwas]
    · obtain rfl := List.mem_singleton.mp hi
      exact rests_of_visit hs h.asked hfs hw hlive happlied
  case missing =>
    intro i hi
    have hsame := hslot (hwalk.failed_visited.subset hi)
    rw [finding?, Arena.handle?, hsame]
    exact h.missing i hi
  case shown =>
    intro i hi
    rcases List.mem_append.mp hi with hi | hi
    · have hsame := hslot hi
      rw [TreeView.children, Arena.childrenOf_congr hsame,
        Arena.isExpanded_congr (congrArg (Option.map Node.expanded) hsame)]
      exact h.shown i hi
    · obtain rfl := List.mem_singleton.mp hi
      have hopen := h.queue_open i List.mem_cons_self
      exact .inr ((isExpanded_visit hw hlive hopen fs lister true false t).imp_right fun hempty =>
        ⟨hwalk.not_failed_next, hempty⟩)

theorem kept (hs : fs.Steady s) (hfs : fs.ResolvesInPlace) (lister : Lister) (top : NodeId) :
    Kept fs lister (Settled fs lister s top) :=
  fun hwalk hlive h => ⟨fun he => h.fail hs hwalk hlive he,
    fun happlied => h.step hs hfs hwalk hlive happlied⟩

end Settled

/-- What a repeated refresh has come to while it is at work. The first one left the tree `known`; it
had visited `covered`, and of these `missed` failed. -/
structure Retraced (fs : FileSystem σ) (lister : Lister) (s : σ) (known : TreeView)
    (missed covered failed visited queue : List NodeId) (tree : TreeView) (t : σ) : Prop where
  asked : fs.Asked s t
  looks : known.LooksAs fs lister s tree
  same_root : tree.root = known.root
  within : ∀ i ∈ visited ++ queue, i ∈ covered
  failed_iff : ∀ i ∈ visited, i ∈ failed ↔ i ∈ missed

namespace Retraced
variable (hs : fs.Steady s) (hfs : fs.ResolvesInPlace)
variable (hknown : Walk top start missed covered [] known)
variable (hsettled : Settled fs lister s top missed covered [] known u)

include hs hfs hsettled in
/-- A visit either fails again or changes nothing. -/
theorem visit_cases
    (h : Retraced fs lister s known missed covered failed visited (id :: queue) tree t)
    (hw : tree.WellFormed) (hlive : tree.arena.get? id = some node) :
    let v := visit fs lister id true false tree t
    (id ∈ missed ∧ ∃ e, v.answer = .error e) ∨
      id ∉ missed ∧ ∃ outcome, v.answer = .ok (.applied outcome) ∧ outcome.inserted = 0 ∧
        outcome.removed = 0 ∧ tree.LooksAs fs lister s v.tree := by
  intro v
  by_cases hid : id ∈ missed
  · refine .inl ⟨hid, ?_⟩
    cases hanswer : v.answer with
    | error e => exact ⟨e, rfl⟩
    | ok application =>
      obtain ⟨⟨outcome, rfl⟩, _⟩ := applied_of_visit hw hlive hanswer
      obtain ⟨path, hnone⟩ := hsettled.missing id hid
      obtain ⟨path', entries, hsome⟩ := finding?_of_applied hs h.asked hw hlive hanswer
      rw [h.looks.finding?_eq, hnone] at hsome
      simp at hsome
  · have hrests : tree.Rests fs lister s id :=
      (hsettled.rests id (h.within id (by simp)) hid).looksAs h.same_root h.looks
    exact .inr ⟨hid, visit_of_rests hs h.asked hfs hw hrests true false⟩

include hs hfs hsettled in
theorem fail (h : Retraced fs lister s known missed covered failed visited (id :: queue) tree t)
    (hw : tree.WellFormed) (hlive : tree.arena.get? id = some node) (hid : id ∉ visited)
    {e : Failure} (he : (visit fs lister id true false tree t).answer = .error e) :
    let v := visit fs lister id true false tree t
    Retraced fs lister s known missed covered (failed ++ [id]) (visited ++ [id]) queue v.tree
      v.world := by
  intro v
  rcases h.visit_cases hs hfs hsettled hw hlive with ⟨hmissed, _⟩ | ⟨_, _, happlied, _⟩
  · constructor
    case asked => exact asked_visit h.asked hw hlive lister true false
    case looks =>
      refine h.looks.trans ?_
      rw [(failed_of_visit hw hlive he).1]
      exact looksAs_bumped tree id
    case same_root => exact (root_visit hw ..).trans h.same_root
    case within => exact fun i hi => h.within i (by simpa using hi)
    case failed_iff =>
      intro i hi
      rcases List.mem_append.mp hi with hi | hi
      · have hne : i ≠ id := fun heq => hid (heq ▸ hi)
        simpa [hne] using h.failed_iff i hi
      · obtain rfl := List.mem_singleton.mp hi
        simpa using hmissed
  · simp [he] at happlied

include hs hfs hknown hsettled in
theorem step (h : Retraced fs lister s known missed covered failed visited (id :: queue) tree t)
    (hw : tree.WellFormed) (hlive : tree.arena.get? id = some node) (hid : id ∉ failed)
    (happlied : (visit fs lister id true false tree t).answer = .ok (.applied outcome)) :
    let v := visit fs lister id true false tree t
    Retraced fs lister s known missed covered failed (visited ++ [id]) (queue ++ outcome.cascade)
      v.tree v.world := by
  intro v
  rcases h.visit_cases hs hfs hsettled hw hlive with ⟨_, e, he⟩ | ⟨hnot, _, _, _, _, hlooks⟩
  · simp [he] at happlied
  · have hv := stepped_of_visit hw hlive happlied
    constructor
    case asked => exact asked_visit h.asked hw hlive lister true false
    case looks => exact h.looks.trans hlooks
    case same_root => exact (root_visit hw ..).trans h.same_root
    case within =>
      intro i hi
      have hsplit : i ∈ visited ++ id :: queue ∨ i ∈ outcome.cascade := by
        simp only [List.mem_append, List.mem_cons, List.not_mem_nil, or_false] at hi ⊢
        tauto
      rcases hsplit with hi | hi
      · exact h.within i hi
      · obtain ⟨_, hlisted, hexpanded⟩ := hv.of_queued hw hi
        rw [h.looks.children_eq] at hlisted
        rw [h.looks.isExpanded_eq] at hexpanded
        have hmem := hknown.frontier id (h.within id (by simp)) hnot i hlisted hexpanded
        rwa [List.append_nil] at hmem
    case failed_iff =>
      intro i hi
      rcases List.mem_append.mp hi with hi | hi
      · exact h.failed_iff i hi
      · obtain rfl := List.mem_singleton.mp hi
        exact iff_of_false hid hnot

include hs hfs hknown hsettled in
theorem kept : Kept fs lister (Retraced fs lister s known missed covered) := by
  intro first start failed visited queue tree t id node hwalk hlive h
  have hid : id ∉ visited := fun hid =>
    List.disjoint_of_nodup_append hwalk.nodup hid List.mem_cons_self
  exact ⟨fun he => h.fail hs hfs hsettled hwalk.wellFormed hlive hid he, fun happlied =>
    h.step hs hfs hknown hsettled hwalk.wellFormed hlive hwalk.not_failed_next happlied⟩

include hs hfs hknown hsettled in
theorem run_counts {first : NodeId} {start' : Arena} {count : Nat} {c : Cascade σ}
    (h : Retraced fs lister s known missed covered failed visited c.queue c.tree c.world)
    (hwalk : Walk first start' failed visited c.queue c.tree)
    (hcounts : c.totals.inserted = 0 ∧ c.totals.removed = 0) :
    let last := Cascade.run fs lister count c
    last.totals.inserted = 0 ∧ last.totals.removed = 0 := by
  induction count generalizing failed visited c with
  | zero => exact hcounts
  | succ count ih =>
    cases hqueue : c.queue with
    | nil => rwa [cascade_of_empty fs lister _ hqueue]
    | cons id queue =>
      have hnext : Cascade.run fs lister (count + 1) c =
          Cascade.run fs lister count (c.step fs lister) := by
        simp [Cascade.run, hqueue]
      rw [hqueue] at h hwalk
      obtain ⟨node, hlive⟩ := hwalk.live id (List.mem_append_right _ List.mem_cons_self)
      obtain ⟨hwalk', h', _⟩ := Walk.advance (motive := Retraced fs lister s known missed covered)
        (kept hs hfs hknown hsettled) hqueue hwalk h
      rw [hnext]
      refine ih h' hwalk' ?_
      rw [step_of_live hqueue hlive]
      rcases h.visit_cases hs hfs hsettled hwalk.wellFormed hlive with
        ⟨_, e, he⟩ | ⟨_, outcome, happlied, hinserted, hremoved, _⟩
      · simp only [he]
        exact hcounts
      · simp only [happlied]
        simp [Totals.add, Totals.addChecked, hcounts, hinserted, hremoved]

include hknown hsettled in
/-- A repeated refresh comes to everything that the first one left failed or with children. -/
theorem visited_again {start' : Arena}
    (h : Retraced fs lister s known missed covered failed visited [] tree t)
    (hwalk : Walk top start' failed visited [] tree) (hi : i ∈ covered)
    (hshown : i ∈ missed ∨ known.children i ≠ []) : i ∈ visited := by
  induction i using Nat.strongRecOn with
  | _ i ih =>
    rcases hknown.led i (List.mem_append_left _ hi) with rfl | ⟨parent, hparent, hlisted, hchild⟩
    · exact hwalk.top_visited
    · have hvisited : parent ∈ visited := ih parent (hknown.wellFormed.linked.lower hchild) hparent
        (.inr (List.ne_nil_of_mem hchild))
      rcases hsettled.shown i hi with rfl | hexpanded | ⟨hnot, hempty⟩
      · exact hwalk.top_visited
      · have hmem := hwalk.frontier parent hvisited
          (fun hfailed => hlisted ((h.failed_iff parent hvisited).mp hfailed)) i
          ((h.looks.children_eq parent).symm ▸ hchild)
          ((h.looks.isExpanded_eq i).trans hexpanded)
        rwa [List.append_nil] at hmem
      · exact absurd hempty (hshown.resolve_left hnot)

include hknown hsettled in
theorem length_failed {start' : Arena}
    (h : Retraced fs lister s known missed covered failed visited [] tree t)
    (hwalk : Walk top start' failed visited [] tree) : failed.length = missed.length := by
  refine ((List.perm_ext_iff_of_nodup hwalk.failed_nodup hknown.failed_nodup).mpr
    fun i => ?_).length_eq
  constructor
  · exact fun hi => (h.failed_iff i (hwalk.failed_visited.subset hi)).mp hi
  · intro hi
    have hvisited : i ∈ visited :=
      h.visited_again hknown hsettled hwalk (hknown.failed_visited.subset hi) (.inl hi)
    exact (h.failed_iff i hvisited).mpr hi

end Retraced

theorem refresh_again (hs : fs.Steady s) (hfs : fs.ResolvesInPlace)
    (hknown : Walk top start missed covered [] known)
    (hsettled : Settled fs known.lister s top missed covered [] known t) :
    ∃ again tree' t', refresh fs top true known t = (.ok again, tree', t') ∧
      again.inserted = 0 ∧ again.removed = 0 ∧ again.failed = missed.length ∧
      known.LooksAs fs known.lister s tree' := by
  have hw := hknown.wellFormed
  obtain ⟨node, hlive⟩ := hknown.live top (List.mem_append_left _ hknown.top_visited)
  obtain ⟨htop, hlisted⟩ := hsettled.top_listed
  obtain ⟨outcome, happlied, hinserted, hremoved, _⟩ :=
    visit_of_rests hs hsettled.asked hfs hw (hsettled.rests top htop hlisted) true false
  have hout : Retraced fs known.lister s known missed covered [] [] [top] known t :=
    ⟨hsettled.asked, fun _ => rfl, rfl, by simpa using htop, by simp⟩
  have hfirst := hout.step hs hfs hknown hsettled hw hlive List.not_mem_nil happlied
  have heq := refreshWith_eq fs top true false known t
  simp only [happlied] at heq
  obtain ⟨⟨_, hwalk⟩, hretraced, hfailed, _⟩ :=
    walk_of_refresh (motive := Retraced fs known.lister s known missed covered)
      (Retraced.kept hs hfs hknown hsettled) hw heq fun _ happlied' => by
        rw [happlied, Except.ok.injEq, Application.applied.injEq] at happlied'
        exact happlied' ▸ hfirst
  obtain ⟨hinserted, hremoved, _⟩ := Totals.first_of_unchanged hinserted hremoved
    (visit fs known.lister top true false known t).checked
  obtain ⟨hinserted', hremoved'⟩ := hfirst.run_counts (c := ⟨outcome.cascade, _, _, _⟩) hs hfs
    hknown hsettled ((stepped_of_visit hw hlive happlied).walk hw) ⟨hinserted, hremoved⟩
  exact ⟨_, _, _, heq, hinserted', hremoved',
    hfailed.trans (hretraced.length_failed hknown hsettled hwalk), hretraced.looks⟩

theorem refresh_false_eq (hw : tree.WellFormed)
    (happlied : (visit fs tree.lister id false false tree t).answer = .ok (.applied outcome)) :
    let v := visit fs tree.lister id false false tree t
    refresh fs id false tree t =
      (.ok ((Totals.zero.add outcome).addChecked v.checked), v.tree, v.world) := by
  rw [refresh, refreshWith_false_eq hw]
  simp only [Visit.totals, happlied]

theorem visit_of_refresh (hw : tree.WellFormed)
    (h : refresh fs id recursive tree s = (.ok totals, tree', t)) :
    ∃ node outcome, tree.arena.get? id = some node ∧
      (visit fs tree.lister id recursive false tree s).answer = .ok (.applied outcome) := by
  rw [refresh, refreshWith_eq] at h
  cases hlive : tree.arena.get? id with
  | none => simp [visit_of_dead hlive] at h
  | some node =>
    cases hanswer : (visit fs tree.lister id recursive false tree s).answer with
    | error e => simp [hanswer] at h
    | ok application =>
      obtain ⟨⟨outcome, rfl⟩, _⟩ := applied_of_visit hw hlive hanswer
      exact ⟨node, outcome, rfl, rfl⟩

theorem refresh_twice (hs : fs.Steady s) (hfs : fs.ResolvesInPlace) (hw : tree.WellFormed)
    (h : refresh fs id recursive tree s = (.ok totals, tree', t)) :
    ∃ again tree'' t', refresh fs id recursive tree' t = (.ok again, tree'', t') ∧
      again.inserted = 0 ∧ again.removed = 0 ∧ again.failed = totals.failed ∧
      tree'.LooksAs fs tree'.lister s tree'' := by
  have hlister : tree'.lister = tree.lister := by
    have hframe := frame_refresh hw fs id recursive s
    rw [h] at hframe
    exact congrArg Prod.snd hframe
  cases recursive with
  | true =>
    obtain ⟨⟨start, hwalk⟩, hsettled, hfailed, _⟩ :=
      walk_of_refresh (motive := Settled fs tree.lister s id) (Settled.kept hs hfs tree.lister id)
        hw h fun hlive happlied => Settled.first hs hfs hw hlive happlied
    rw [hfailed]
    exact refresh_again hs hfs hwalk (hlister.symm ▸ hsettled)
  | false =>
    obtain ⟨node, outcome, hlive, happlied⟩ := visit_of_refresh hw h
    rw [refresh_false_eq hw happlied, Prod.mk.injEq, Prod.mk.injEq, Except.ok.injEq] at h
    obtain ⟨rfl, htree, hworld⟩ := h
    have hw' : tree'.WellFormed :=
      htree ▸ (visit_run fs tree.lister id false false tree s).wellFormed hw
    have hasked : fs.Asked s t := hworld ▸ asked_visit .nothing hw hlive tree.lister false false
    have hrests : tree'.Rests fs tree'.lister s id := by
      rw [hlister, ← htree]
      exact rests_of_visit hs .nothing hfs hw hlive happlied
    obtain ⟨outcome', happlied', hinserted, hremoved, hlooks⟩ :=
      visit_of_rests hs hasked hfs hw' hrests false false
    obtain ⟨hinserted, hremoved, hfailed⟩ := Totals.first_of_unchanged hinserted hremoved
      (visit fs tree'.lister id false false tree' t).checked
    exact ⟨_, _, _, refresh_false_eq hw' happlied', hinserted, hremoved, hfailed, hlooks⟩

end TreeView

/-- A filesystem that holds what its state says, and resolves every placeholder in place. -/
def FileSystem.tabled : FileSystem (List (String × List Entry)) :=
  .ofListing (fun rows dir =>
      (((rows.lookup dir).map Except.ok).getD (.error (.described .notFound dir)), rows))
    fun rows path => (.ok (.real path), rows)

theorem FileSystem.tabled_resolvesInPlace : FileSystem.tabled.ResolvesInPlace := by
  intro rows path found h
  obtain rfl : _ = found := Except.ok.inj h
  exact ⟨rfl, by simp [Handle.real, Handle.ofPath]⟩

theorem FileSystem.tabled_steady (rows : List (String × List Entry)) :
    FileSystem.tabled.Steady rows := by
  have hsame {later : List (String × List Entry)} (h : FileSystem.tabled.Asked rows later) :
      later = rows := by
    induction h with
    | nothing => rfl
    | enumerate _ _ ih => exact ih
    | resolve _ _ ih => exact ih
    | @holdsDirectory later _ path filter ih =>
      rw [← ih]
      simp only [FileSystem.tabled, FileSystem.ofListing, FileSystem.holdsDirectoryByListing]
      split <;> simp_all
  exact ⟨fun h _ => by rw [hsame h], fun h _ => by rw [hsame h], fun h _ _ => by rw [hsame h]⟩

namespace Session
variable {σ : Type}

/-- Whatever a run has made of the tree, and whatever it had seen of a filesystem that keeps still
from then on: a refresh that answers, when it is made again at once, answers again, counts nothing
as inserted or removed and as many failures, and leaves ids, child lists and expanded nodes. -/
theorem run_repeated_refresh_rests (fs : FileSystem σ) (hfs : fs.ResolvesInPlace)
    (filter : NameFilter) (volumes : VolumeMap) (world : σ) (actions : List (Action σ)) :
    let x := (start filter volumes world).run fs actions
    fs.Steady x.world → ∀ id recursive totals tree s,
      x.tree.refresh fs id recursive x.world = (.ok totals, tree, s) →
      ∃ again tree' s', tree.refresh fs id recursive s = (.ok again, tree', s') ∧
        again.inserted = 0 ∧ again.removed = 0 ∧ again.failed = totals.failed ∧
        ∀ i, tree'.holds i = tree.holds i ∧ tree'.children i = tree.children i ∧
          tree'.arena.isExpanded i = tree.arena.isExpanded i := by
  intro x hs id recursive totals tree s hrefresh
  have hw : x.tree.WellFormed := wellFormed_run (wellFormed_start filter volumes world) fs actions
  obtain ⟨again, tree', s', hagain, hinserted, hremoved, hfailed, hlooks⟩ :=
    TreeView.refresh_twice hs hfs hw hrefresh
  exact ⟨again, tree', s', hagain, hinserted, hremoved, hfailed,
    fun i => ⟨hlooks.holds_eq i, hlooks.children_eq i, hlooks.isExpanded_eq i⟩⟩

/-- Of two open directories one is gone by now and one has something more, and the listing names
another twice: the first refresh inserts three nodes and counts a failure, the second one only
counts the failure. -/
theorem changed_branches_come_to_rest :
    let x := (start .everything ⟨"/net", [], "", "", [], []⟩
        [("/a", [.directory "/a/b", .directory "/a/c"]), ("/a/b", [.directory "/a/b/d"]),
          ("/a/c", [.directory "/a/c/e"])]).run .tabled
      [.operate (.select "/a" 2), .operate (.expand 2), .operate (.expand 3),
        .drift [("/a", [.directory "/a/f", .directory "/a/c", .directory "/a/f",
          .directory "/a/b"]), ("/a/c", [.directory "/a/c/g", .directory "/a/c/e"])]]
    let first := x.tree.refresh .tabled 1 true x.world
    first.1 = .ok ⟨2, 3, 0, 1, false, 4⟩ ∧
      ∃ again tree' s', first.2.1.refresh .tabled 1 true first.2.2 = (.ok again, tree', s') ∧
        again.inserted = 0 ∧ again.removed = 0 ∧ again.failed = 1 ∧
        ∀ i, tree'.children i = first.2.1.children i := by
  intro x first
  have hfirst : first.1 = .ok ⟨2, 3, 0, 1, false, 4⟩ := by decide +kernel
  obtain ⟨again, tree', s', hagain, hinserted, hremoved, hfailed, hsame⟩ :=
    run_repeated_refresh_rests .tabled FileSystem.tabled_resolvesInPlace .everything
      ⟨"/net", [], "", "", [], []⟩ _
      [.operate (.select "/a" 2), .operate (.expand 2), .operate (.expand 3),
        .drift [("/a", [.directory "/a/f", .directory "/a/c", .directory "/a/f",
          .directory "/a/b"]), ("/a/c", [.directory "/a/c/g", .directory "/a/c/e"])]]
      (FileSystem.tabled_steady _) 1 true ⟨2, 3, 0, 1, false, 4⟩ first.2.1 first.2.2
      (Prod.ext hfirst rfl)
  exact ⟨hfirst, again, tree', s', hagain, hinserted, hremoved, hfailed, fun i => (hsame i).2.1⟩

end Session

end LazyTree
