import LazyTree.Proofs.Refreshing

/-!
The way a recursive refresh takes, whatever the filesystem answers. Its queue leads to each expanded
node below the refreshed one and visits it once; a visit touches nothing but what lies below its
node, and expands nothing.
-/
namespace LazyTree

theorem Arena.length_le_size {arena : Arena} {ids : List NodeId} (hnodup : ids.Nodup)
    (hlive : ∀ id ∈ ids, ∃ node, arena.get? id = some node) : ids.length ≤ arena.size := by
  induction ids generalizing arena with
  | nil => exact Nat.zero_le _
  | cons id ids ih =>
    obtain ⟨hnot, hnodup⟩ := List.nodup_cons.mp hnodup
    obtain ⟨node, hnode⟩ := hlive id List.mem_cons_self
    have hrest : ids.length ≤ (arena.erase id).size := by
      refine ih hnodup fun other hother => ?_
      have hne : other ≠ id := fun heq => hnot (heq ▸ hother)
      rw [get?_erase, if_neg hne]
      exact hlive other (List.mem_cons_of_mem id hother)
    exact Nat.lt_of_le_of_lt hrest (size_erase_lt hnode)

theorem Arena.size_le_length {arena : Arena} {ids : List NodeId}
    (hall : ∀ id node, arena.get? id = some node → id ∈ ids) : arena.size ≤ ids.length := by
  induction ids generalizing arena with
  | nil =>
    have hempty : arena.isEmpty = true := Arena.isEmpty_iff.mpr fun id =>
      Option.eq_none_iff_forall_ne_some.mpr fun node hlive => by cases hall id node hlive
    rw [isEmpty, decide_eq_true_eq] at hempty
    exact Nat.le_of_eq hempty
  | cons id ids ih =>
    have hrest : (arena.erase id).size ≤ ids.length := by
      refine ih fun other node hlive => ?_
      rw [get?_erase] at hlive
      split at hlive
      · cases hlive
      · rename_i hne
        cases List.mem_cons.mp (hall other node hlive) with
        | inl heq => exact absurd heq hne
        | inr hmem => exact hmem
    exact Nat.le_trans (size_le_erase arena id) (Nat.succ_le_succ hrest)

namespace Arena
variable {arena : Arena} {above : List NodeId} {id child : NodeId} {node : Node}

/-- Distinct live nodes with smaller ids than `id`, as those are that a way down to it passes. -/
structure Passed (arena : Arena) (above : List NodeId) (id : NodeId) : Prop where
  nodup : above.Nodup
  lower : ∀ i ∈ above, i < id
  live : ∀ i ∈ above, ∃ node, arena.get? i = some node

theorem Passed.nil (arena : Arena) (id : NodeId) : arena.Passed [] id :=
  ⟨List.nodup_nil, by simp, by simp⟩

theorem Passed.cons (h : arena.Passed above id) (hlive : arena.get? id = some node)
    (hlt : id < child) : arena.Passed (id :: above) child := by
  refine ⟨List.nodup_cons.mpr ⟨fun hmem => Nat.lt_irrefl id (h.lower id hmem), h.nodup⟩,
    fun i hi => ?_, fun i hi => ?_⟩
  · rcases List.mem_cons.mp hi with rfl | hi
    · exact hlt
    · exact Nat.lt_trans (h.lower i hi) hlt
  · rcases List.mem_cons.mp hi with rfl | hi
    · exact ⟨node, hlive⟩
    · exact h.live i hi

theorem Passed.length_lt (h : arena.Passed above id) (hlive : arena.get? id = some node) :
    above.length < arena.size := by
  have hpath := h.cons hlive (Nat.lt_succ_self id)
  exact length_le_size hpath.nodup hpath.live

end Arena

namespace TreeView
variable {σ : Type} {tree tree' : TreeView} {target top id i : NodeId} {node n : Node}
variable {listing : Listing} {children failed visited queue queued : List NodeId} {start : Arena}

theorem Applied.untouched (ha : Applied tree tree' target node listing children)
    (hw : tree.WellFormed) (hi : tree.arena.get? i = some n) (hu : ¬ tree.arena.Under target i)
    (htarget : ∃ n, tree.arena.get? target = some n) :
    i ∉ children ∧ tree'.arena.get? i = some n := by
  obtain ⟨was, hwas⟩ := htarget
  have hne : i ≠ target := by
    rintro rfl
    exact hu (.self hwas)
  have hnot : i ∉ children := fun hc =>
    hu (hw.linked.under_of_listed (ha.relisted.of_kept hw.linked hc hi).1 (.self hwas))
  refine ⟨hnot, ?_⟩
  rcases ha.relisted.frame i hne hnot with hsame | ⟨_, hunder⟩
  · exact hsame.trans hi
  · exact absurd hunder hu

theorem children_visitChecks (fs : FileSystem σ) (lister : Lister) (id : NodeId) (always : Bool)
    (outcome : MergeOutcome) (tree : TreeView) (s : σ) (i : NodeId) :
    (visitChecks fs lister id always outcome tree s).tree.children i = tree.children i := by
  have hmap := @map_get?_visitChecks _ _ Node.children (fun _ _ => rfl) fs lister id always outcome
    tree s i
  rw [children, children, Arena.childrenOf_eq_getD, hmap, ← Arena.childrenOf_eq_getD]

theorem get?_visitChecks_of_expanded
    (h : i ∈ tree.children id → tree.arena.isExpanded i = true) (fs : FileSystem σ)
    (lister : Lister) (always : Bool) (outcome : MergeOutcome) (s : σ) :
    (visitChecks fs lister id always outcome tree s).tree.arena.get? i = tree.arena.get? i := by
  unfold visitChecks
  split
  · refine get?_checkTargets_of_not_mem (fun hmem => ?_) ..
    obtain ⟨⟨_, handle⟩, htarget, rfl⟩ := List.mem_map.mp hmem
    obtain ⟨hlisted, node, hlive, hcollapsed, _⟩ := mem_collapsedChildren.mp htarget
    have hexpanded := h hlisted
    rw [Arena.isExpanded_of_live hlive, hcollapsed] at hexpanded
    exact Bool.false_ne_true hexpanded
  · rfl

theorem get?_visitChecks_of_not_mem (h : i ∉ tree.children id) (fs : FileSystem σ)
    (lister : Lister) (always : Bool) (outcome : MergeOutcome) (s : σ) :
    (visitChecks fs lister id always outcome tree s).tree.arena.get? i = tree.arena.get? i :=
  get?_visitChecks_of_expanded (fun hmem => absurd hmem h) ..

theorem under_of_bumped (h : (tree.bumped id).arena.Under target i) :
    tree.arena.Under target i :=
  h.congr (map_get?_bumped (fun _ _ => by rfl) tree id)

theorem visit_untouched (hw : tree.WellFormed) (hlive : tree.arena.get? id = some node)
    (fs : FileSystem σ) (lister : Lister) (recursive always : Bool) (s : σ)
    (hi : tree.arena.get? i = some n) (hu : ¬ tree.arena.Under id i) :
    (visit fs lister id recursive always tree s).tree.arena.get? i = some n := by
  have hne : i ≠ id := by
    rintro rfl
    exact hu (.self hi)
  have hi' : (tree.bumped id).arena.get? i = some n := (Arena.get?_modify_of_ne hne _).trans hi
  rcases visit_of_live hw hlive fs lister recursive always s with
    ⟨e, _, heq⟩ | ⟨listing, outcome, listed, children, _, happlied, _, heq⟩
  · rw [heq]
    exact hi'
  · obtain ⟨hnot, hsame⟩ := happlied.untouched (hw.bumped id) hi'
      (fun hu' => hu (under_of_bumped hu')) ⟨_, get?_bumped hlive⟩
    have hchildren : listed.children id = children :=
      Arena.childrenOf_of_live happlied.relisted.self
    rw [heq, get?_visitChecks_of_not_mem (hchildren ▸ hnot)]
    exact hsame

/-- What a visit that listed its node leaves, `queued` being the nodes that it leads to. -/
structure Stepped (tree tree' : TreeView) (id : NodeId) (queued : List NodeId) : Prop where
  wellFormed : tree'.WellFormed
  evolves : ∃ issued, Arena.Evolves issued tree.arena tree'.arena
  live : ∃ node, tree'.arena.get? id = some node
  queues : queued = (tree'.children id).filter fun child => tree.arena.isExpanded child
  expanded_before : ∀ {i}, tree'.arena.isExpanded i = true → tree.arena.isExpanded i = true
  untouched : ∀ {i node}, tree.arena.get? i = some node → ¬ tree.arena.Under id i →
    tree'.arena.get? i = some node

theorem applied_of_visit (hw : tree.WellFormed) (hlive : tree.arena.get? id = some node)
    {fs : FileSystem σ} {lister : Lister} {recursive always : Bool} {s : σ}
    {application : Application}
    (h : (visit fs lister id recursive always tree s).answer = .ok application) :
    (∃ outcome, application = .applied outcome) ∧
      failedBy (visitMoves fs lister id recursive always tree s) = [] := by
  rw [failedBy_visitMoves hlive]
  rcases visit_of_live hw hlive fs lister recursive always s with
    ⟨e, _, heq⟩ | ⟨_, outcome, _, _, hfetch, _, _, heq⟩
  · simp [heq] at h
  · rw [heq, visitChecks_answer] at h
    rw [hfetch]
    exact ⟨⟨outcome, (Except.ok.inj h).symm⟩, rfl⟩

theorem failed_of_visit (hw : tree.WellFormed) (hlive : tree.arena.get? id = some node)
    {fs : FileSystem σ} {lister : Lister} {recursive always : Bool} {s : σ} {e : Failure}
    (h : (visit fs lister id recursive always tree s).answer = .error e) :
    (visit fs lister id recursive always tree s).tree = tree.bumped id ∧
      failedBy (visitMoves fs lister id recursive always tree s) = [id] := by
  rw [failedBy_visitMoves hlive]
  rcases visit_of_live hw hlive fs lister recursive always s with
    ⟨e, hfetch, heq⟩ | ⟨_, _, _, _, _, _, _, heq⟩
  · rw [heq, hfetch]
    exact ⟨rfl, rfl⟩
  · simp [heq, visitChecks_answer] at h

theorem stepped_of_visit (hw : tree.WellFormed) (hlive : tree.arena.get? id = some node)
    {fs : FileSystem σ} {lister : Lister} {s : σ} {outcome : MergeOutcome}
    (h : (visit fs lister id true false tree s).answer = .ok (.applied outcome)) :
    Stepped tree (visit fs lister id true false tree s).tree id outcome.cascade where
  wellFormed := (visit_run fs lister id true false tree s).wellFormed hw
  evolves := ⟨_, (visit_run fs lister id true false tree s).evolves hw⟩
  live := visit_live hw hlive fs lister true false s
  queues := by
    rcases visit_of_live hw hlive fs lister true false s with
      ⟨e, _, heq⟩ | ⟨listing, merged, listed, children, _, happlied, hcascade, heq⟩
    · simp [heq] at h
    · have hchildren : listed.children id = children :=
        Arena.childrenOf_of_live happlied.relisted.self
      rw [heq, visitChecks_answer, Except.ok.injEq, Application.applied.injEq] at h
      rw [heq, children_visitChecks, hchildren, ← h, hcascade]
      simp
  expanded_before := (visit_run fs lister id true false tree s).expanded_before hw
    (refreshes_visitMoves ..)
  untouched := visit_untouched hw hlive fs lister true false s

namespace Stepped

theorem of_queued (hv : Stepped tree tree' id queued) (hw : tree.WellFormed) (hi : i ∈ queued) :
    i ∈ tree'.children id ∧ i ∈ tree.children id ∧ tree.arena.isExpanded i = true := by
  rw [hv.queues, List.mem_filter] at hi
  obtain ⟨hlisted, hexpanded⟩ := hi
  obtain ⟨_, hevolves⟩ := hv.evolves
  obtain ⟨node, hlive, _⟩ := Arena.live_of_isExpanded hexpanded
  exact ⟨hlisted, hevolves.listed_before hw.linked hv.wellFormed.linked hlisted hlive, hexpanded⟩

theorem queued_nodup (hv : Stepped tree tree' id queued) : queued.Nodup := by
  rw [hv.queues]
  exact (hv.wellFormed.linked.once id).filter _

end Stepped

/-- The nodes from `top` on that are visited or queued, and the visited ones that could not be
listed; `start` is the arena when `top` had been visited. -/
structure Walk (top : NodeId) (start : Arena) (failed visited queue : List NodeId)
    (tree : TreeView) : Prop where
  wellFormed : tree.WellFormed
  top_visited : top ∈ visited
  nodup : (visited ++ queue).Nodup
  failed_visited : failed.Sublist visited
  live : ∀ i ∈ visited ++ queue, ∃ node, tree.arena.get? i = some node
  /-- Every node but the first was led to by a node that was listed. -/
  led : ∀ i ∈ visited ++ queue, i = top ∨
    ∃ parent ∈ visited, parent ∉ failed ∧ i ∈ tree.children parent
  frontier : ∀ parent ∈ visited, parent ∉ failed → ∀ i ∈ tree.children parent,
    tree.arena.isExpanded i = true → i ∈ visited ++ queue
  old : ∀ i ∈ visited ++ queue, ∃ node, start.get? i = some node
  expanded_old : ∀ i, tree.arena.isExpanded i = true → ∃ node, start.get? i = some node

namespace Walk

theorem top_le (h : Walk top start failed visited queue tree) :
    ∀ i ∈ visited ++ queue, top ≤ i := by
  intro i
  induction i using Nat.strongRecOn with
  | _ i ih =>
    intro hi
    rcases h.led i hi with rfl | ⟨parent, hparent, _, hlisted⟩
    · exact Nat.le_refl _
    · have hlt := h.wellFormed.linked.lower hlisted
      exact Nat.le_of_lt (Nat.lt_of_le_of_lt (ih parent hlt (List.mem_append_left _ hparent)) hlt)

/-- Nothing visited or queued lies below a node that failed or is still queued: it was led to by
nodes that were listed. -/
theorem not_under_unlisted (h : Walk top start failed visited queue tree)
    (hid : id ∈ failed ++ queue) (hi : i ∈ visited ++ queue) (hne : i ≠ id) :
    ¬ tree.arena.Under id i := by
  have hmem : id ∈ visited ++ queue := by
    rcases List.mem_append.mp hid with hid | hid
    · exact List.mem_append_left _ (h.failed_visited.subset hid)
    · exact List.mem_append_right _ hid
  intro hu
  induction hu with
  | self _ => exact hne rfl
  | @step i parent node live up above ih =>
    rcases h.led i hi with rfl | ⟨parent', hparent, hlisted', hlisted⟩
    · exact hne (Nat.le_antisymm (h.top_le id hmem)
        (h.wellFormed.linked.le_of_under (.step live up above)))
    · obtain ⟨node', live', up'⟩ := h.wellFormed.linked.owned hlisted
      obtain rfl := Option.some.inj (live.symm.trans live')
      obtain rfl := Option.some.inj (up.symm.trans up')
      refine ih (List.mem_append_left _ hparent) ?_
      rintro rfl
      rcases List.mem_append.mp hid with hid | hid
      · exact hlisted' hid
      · exact List.disjoint_of_nodup_append h.nodup hparent hid

/-- What a visit of the next node may touch is neither visited nor queued, nor a child of a visited
node other than the next node itself. -/
theorem not_under_next (h : Walk top start failed visited (id :: queue) tree)
    (hi : i ≠ id) (hled : i = top ∨ ∃ parent ∈ visited, i ∈ tree.children parent) :
    ¬ tree.arena.Under id i := by
  have hid : id ∈ failed ++ id :: queue := List.mem_append_right _ List.mem_cons_self
  rcases hled with rfl | ⟨parent, hparent, hlisted⟩
  · exact h.not_under_unlisted hid (List.mem_append_left _ h.top_visited) hi
  · intro hu
    rcases (h.wellFormed.linked.under_listed_iff hlisted).mp hu with heq | hu
    · exact hi heq
    · refine h.not_under_unlisted hid (List.mem_append_left _ hparent) ?_ hu
      rintro rfl
      exact List.disjoint_of_nodup_append h.nodup hparent List.mem_cons_self

theorem visited_ne (h : Walk top start failed visited (id :: queue) tree)
    (hi : i ∈ visited ++ queue) : i ≠ id := by
  rintro rfl
  have hnodup := List.nodup_middle.mp h.nodup
  exact (List.nodup_cons.mp hnodup).1 hi

theorem not_under_of_mem (h : Walk top start failed visited (id :: queue) tree)
    (hi : i ∈ visited ++ queue) : ¬ tree.arena.Under id i := by
  refine h.not_under_unlisted (List.mem_append_right _ List.mem_cons_self) ?_ (h.visited_ne hi)
  exact (List.sublist_cons_self id queue).append_left visited |>.subset hi

/-- A visit of the next node leaves the nodes alone that are visited or wait in the queue. -/
theorem kept (h : Walk top start failed visited (id :: queue) tree)
    (hv : Stepped tree tree' id queued) (hi : i ∈ visited ++ queue)
    (hlive : tree.arena.get? i = some node) : tree'.arena.get? i = some node :=
  hv.untouched hlive (h.not_under_of_mem hi)

theorem children_kept (h : Walk top start failed visited (id :: queue) tree)
    (hv : Stepped tree tree' id queued) (hi : i ∈ visited) :
    tree'.children i = tree.children i := by
  obtain ⟨node, hlive⟩ := h.live i (List.mem_append_left _ hi)
  have hlive' := h.kept hv (List.mem_append_left _ hi) hlive
  exact (Arena.childrenOf_of_live hlive').trans (Arena.childrenOf_of_live hlive).symm

theorem nodup_step (h : Walk top start failed visited (id :: queue) tree)
    (hv : Stepped tree tree' id queued) :
    ((visited ++ [id]) ++ (queue ++ queued)).Nodup := by
  have hfirst : ((visited ++ [id]) ++ queue).Nodup := by
    simpa only [List.append_assoc, List.singleton_append] using h.nodup
  rw [← List.append_assoc]
  refine hfirst.append hv.queued_nodup fun i hi hc => ?_
  -- A queued child lies below `id`, where nothing is visited or queued before.
  obtain ⟨_, hlisted, _⟩ := hv.of_queued h.wellFormed hc
  have hne : i ≠ id := Nat.ne_of_gt (h.wellFormed.linked.lower hlisted)
  obtain ⟨node, hlive⟩ := Arena.live_of_mem_childrenOf hlisted
  have hu : tree.arena.Under id i := h.wellFormed.linked.under_of_listed hlisted (.self hlive.1)
  have hmem : i ∈ visited ++ id :: queue := by
    simpa only [List.append_assoc, List.singleton_append] using hi
  exact h.not_under_unlisted (List.mem_append_right _ List.mem_cons_self) hmem hne hu

theorem not_failed_next (h : Walk top start failed visited (id :: queue) tree) : id ∉ failed :=
  fun hid => List.disjoint_of_nodup_append h.nodup (h.failed_visited.subset hid) List.mem_cons_self

theorem failed_nodup (h : Walk top start failed visited queue tree) : failed.Nodup :=
  h.failed_visited.nodup (List.Nodup.of_append_left h.nodup)

theorem step (h : Walk top start failed visited (id :: queue) tree)
    (hv : Stepped tree tree' id queued) :
    Walk top start failed (visited ++ [id]) (queue ++ queued) tree' := by
  have hlisted {i : NodeId} (hi : i ∈ queued) : i ∈ tree'.children id :=
    (hv.of_queued h.wellFormed hi).1
  have hsplit {i : NodeId} (hi : i ∈ (visited ++ [id]) ++ (queue ++ queued)) :
      i ∈ visited ++ queue ∨ i = id ∨ i ∈ queued := by
    simp only [List.mem_append, List.mem_singleton] at hi ⊢
    tauto
  have hback {i : NodeId} (hi : i ∈ visited ++ queue) : i ∈ visited ++ id :: queue := by
    simp only [List.mem_append, List.mem_cons] at hi ⊢
    tauto
  constructor
  case wellFormed => exact hv.wellFormed
  case top_visited => exact List.mem_append_left _ h.top_visited
  case nodup => exact h.nodup_step hv
  case failed_visited => exact h.failed_visited.trans (List.sublist_append_left visited [id])
  case live =>
    intro i hi
    rcases hsplit hi with hi | rfl | hi
    · obtain ⟨node, hlive⟩ := h.live i (hback hi)
      exact ⟨node, h.kept hv hi hlive⟩
    · exact hv.live
    · obtain ⟨node, hlive, _⟩ := hv.wellFormed.linked.owned (hlisted hi)
      exact ⟨node, hlive⟩
  case led =>
    intro i hi
    have hold (hi : i ∈ visited ++ id :: queue) : i = top ∨
        ∃ parent ∈ visited ++ [id], parent ∉ failed ∧ i ∈ tree'.children parent := by
      refine (h.led i hi).imp (·) fun ⟨parent, hparent, hnot, hlisted⟩ => ?_
      exact ⟨parent, List.mem_append_left _ hparent, hnot,
        (h.children_kept hv hparent).symm ▸ hlisted⟩
    rcases hsplit hi with hi | rfl | hi
    · exact hold (hback hi)
    · exact hold (List.mem_append_right _ List.mem_cons_self)
    · exact .inr ⟨id, List.mem_append_right _ List.mem_cons_self, h.not_failed_next, hlisted hi⟩
  case frontier =>
    intro parent hparent hnot i hi hexpanded
    have hbefore := hv.expanded_before hexpanded
    rcases List.mem_append.mp hparent with hparent | hparent
    · rw [h.children_kept hv hparent] at hi
      have hmem := h.frontier parent hparent hnot i hi hbefore
      simp only [List.mem_append, List.mem_cons, List.not_mem_nil, or_false] at hmem ⊢
      tauto
    · obtain rfl := List.mem_singleton.mp hparent
      have hmem : i ∈ queued := by
        rw [hv.queues, List.mem_filter]
        exact ⟨hi, hbefore⟩
      exact List.mem_append_right _ (List.mem_append_right _ hmem)
  case old =>
    intro i hi
    rcases hsplit hi with hi | rfl | hi
    · exact h.old i (hback hi)
    · exact h.old i (List.mem_append_right _ List.mem_cons_self)
    · exact h.expanded_old i (hv.of_queued h.wellFormed hi).2.2
  case expanded_old => exact fun i hi => h.expanded_old i (hv.expanded_before hi)

theorem fail (h : Walk top start failed visited (id :: queue) tree) :
    Walk top start (failed ++ [id]) (visited ++ [id]) queue (tree.bumped id) := by
  have hchildren (i : NodeId) : (tree.bumped id).children i = tree.children i :=
    Arena.childrenOf_modify (fun _ => by rfl) i
  have hmoved : (visited ++ [id]) ++ queue = visited ++ id :: queue := by simp
  constructor
  case wellFormed => exact h.wellFormed.bumped id
  case top_visited => exact List.mem_append_left _ h.top_visited
  case nodup => rw [hmoved]; exact h.nodup
  case failed_visited => exact h.failed_visited.append (.refl [id])
  case live =>
    intro i hi
    obtain ⟨node, hlive⟩ := h.live i (hmoved ▸ hi)
    have hmap := @map_get?_bumped _ Node.path (fun _ _ => rfl) tree id i
    obtain ⟨node', hlive', _⟩ := Arena.live_of_map_get?_eq hmap hlive
    exact ⟨node', hlive'⟩
  case led =>
    intro i hi
    refine (h.led i (hmoved ▸ hi)).imp (·) fun ⟨parent, hparent, hnot, hlisted⟩ => ?_
    refine ⟨parent, List.mem_append_left _ hparent, ?_, (hchildren parent).symm ▸ hlisted⟩
    simp [hnot, h.visited_ne (List.mem_append_left _ hparent)]
  case frontier =>
    intro parent hparent hnot i hi hexpanded
    simp only [List.mem_append, List.mem_singleton, not_or] at hparent hnot
    rw [hmoved]
    rw [hchildren] at hi
    rw [isExpanded_bumped] at hexpanded
    exact h.frontier parent (hparent.resolve_right hnot.2) hnot.1 i hi hexpanded
  case old => exact fun i hi => h.old i (hmoved ▸ hi)
  case expanded_old =>
    exact fun i hi => h.expanded_old i ((isExpanded_bumped tree id i).symm.trans hi)

end Walk

theorem Stepped.walk (hv : Stepped tree tree' id queued) (hw : tree.WellFormed) :
    Walk id tree'.arena [] [id] queued tree' := by
  have hlive : ∀ i ∈ [id] ++ queued, ∃ node, tree'.arena.get? i = some node := by
    intro i hi
    rcases List.mem_cons.mp hi with rfl | hi
    · exact hv.live
    · obtain ⟨node, hlive, _⟩ := hv.wellFormed.linked.owned (hv.of_queued hw hi).1
      exact ⟨node, hlive⟩
  constructor
  case wellFormed => exact hv.wellFormed
  case top_visited => exact List.mem_cons_self
  case nodup =>
    refine List.nodup_cons.mpr ⟨fun hi => ?_, hv.queued_nodup⟩
    exact Nat.lt_irrefl id (hv.wellFormed.linked.lower (hv.of_queued hw hi).1)
  case failed_visited => exact List.nil_sublist [id]
  case live => exact hlive
  case led =>
    intro i hi
    rcases List.mem_cons.mp hi with rfl | hi
    · exact .inl rfl
    · exact .inr ⟨id, List.mem_cons_self, List.not_mem_nil, (hv.of_queued hw hi).1⟩
  case frontier =>
    intro parent hparent _ i hi hexpanded
    obtain rfl := List.mem_singleton.mp hparent
    refine List.mem_append_right _ ?_
    rw [hv.queues, List.mem_filter]
    exact ⟨hi, hv.expanded_before hexpanded⟩
  case old => exact hlive
  case expanded_old =>
    intro i hexpanded
    obtain ⟨node, hnow, _⟩ := Arena.live_of_isExpanded hexpanded
    exact ⟨node, hnow⟩

/-- What holds of the failed, the visited and the queued nodes after the first visit of a walk and
is kept by every visit after it, whether it lists its node or fails. -/
def Kept (fs : FileSystem σ) (lister : Lister)
    (motive : List NodeId → List NodeId → List NodeId → TreeView → σ → Prop) : Prop :=
  ∀ {top start failed visited queue tree s id node},
    Walk top start failed visited (id :: queue) tree → tree.arena.get? id = some node →
    motive failed visited (id :: queue) tree s →
    let v := visit fs lister id true false tree s
    (∀ {e}, v.answer = .error e → motive (failed ++ [id]) (visited ++ [id]) queue v.tree v.world) ∧
    ∀ {outcome}, v.answer = .ok (.applied outcome) →
      motive failed (visited ++ [id]) (queue ++ outcome.cascade) v.tree v.world

variable {fs : FileSystem σ} {lister : Lister}
variable {motive : List NodeId → List NodeId → List NodeId → TreeView → σ → Prop}

/-- A step of a cascade is a step of the walk. It counts its visit, one that fails apart. -/
theorem Walk.advance (hkept : Kept fs lister motive) {c : Cascade σ}
    (hqueue : c.queue = id :: queue) (h : Walk top start failed visited (id :: queue) c.tree)
    (hm : motive failed visited (id :: queue) c.tree c.world) :
    let next := c.step fs lister
    let failing := failedBy (visitMoves fs lister id true false c.tree c.world)
    Walk top start (failed ++ failing) (visited ++ [id]) next.queue next.tree ∧
      motive (failed ++ failing) (visited ++ [id]) next.queue next.tree next.world ∧
      next.totals.failed = c.totals.failed + failing.length ∧
      next.totals.nodes + next.totals.failed = c.totals.nodes + c.totals.failed + 1 := by
  obtain ⟨node, hlive⟩ := h.live id (List.mem_append_right _ List.mem_cons_self)
  have hstep := @step_of_live _ fs lister _ _ _ _ hqueue hlive
  obtain ⟨hfail, hlist⟩ := hkept h hlive hm
  cases hanswer : (visit fs lister id true false c.tree c.world).answer with
  | error e =>
    obtain ⟨hbumped, hfailed⟩ := failed_of_visit h.wellFormed hlive hanswer
    have hfails := h.fail
    rw [← hbumped] at hfails
    simp only [hanswer] at hstep
    simp only [hstep, hfailed]
    exact ⟨hfails, hfail hanswer, rfl, rfl⟩
  | ok application =>
    obtain ⟨⟨outcome, rfl⟩, hfailed⟩ := applied_of_visit h.wellFormed hlive hanswer
    simp only [hanswer] at hstep
    simp only [hstep, hfailed, List.append_nil]
    exact ⟨h.step (stepped_of_visit h.wellFormed hlive hanswer), hlist hanswer, rfl,
      Nat.add_right_comm c.totals.nodes 1 c.totals.failed⟩

/-- A cascade visits everything it queues until nothing is left, and it counts each visit, those
that fail apart. -/
theorem Walk.run (hkept : Kept fs lister motive) {count : Nat} {c : Cascade σ}
    (h : Walk top start failed visited c.queue c.tree)
    (hm : motive failed visited c.queue c.tree c.world)
    (hcount : start.size ≤ count + visited.length) :
    let last := Cascade.run fs lister count c
    let moves := cascadeMoves fs lister count c
    last.queue = [] ∧
      Walk top start (failed ++ failedBy moves) (visited ++ issuedBy moves) [] last.tree ∧
      motive (failed ++ failedBy moves) (visited ++ issuedBy moves) [] last.tree last.world ∧
      last.totals.failed = c.totals.failed + (failedBy moves).length ∧
      last.totals.nodes + last.totals.failed =
        c.totals.nodes + c.totals.failed + (issuedBy moves).length := by
  dsimp only
  induction count generalizing failed visited c with
  | zero =>
    have hsize := Arena.length_le_size h.nodup h.old
    have hempty : c.queue = [] := by
      refine List.eq_nil_of_length_eq_zero ?_
      rw [List.length_append] at hsize
      omega
    refine ⟨hempty, ?_⟩
    rw [hempty] at h hm
    simpa [cascadeMoves, issuedBy, failedBy, Cascade.run] using And.intro h hm
  | succ count ih =>
    cases hqueue : c.queue with
    | nil =>
      rw [hqueue] at h hm
      rw [cascade_of_empty fs lister _ hqueue]
      refine ⟨hqueue, ?_⟩
      simpa [cascadeMoves, hqueue, issuedBy, failedBy] using And.intro h hm
    | cons id queue =>
      rw [hqueue] at h hm
      obtain ⟨node, hlive⟩ := h.live id (List.mem_append_right _ List.mem_cons_self)
      have hnext : Cascade.run fs lister (count + 1) c =
          Cascade.run fs lister count (c.step fs lister) := by
        simp [Cascade.run, hqueue]
      have hlength : (visited ++ [id]).length = visited.length + 1 := by simp
      obtain ⟨hwalk, hmotive, hfailed, hvisits⟩ := Walk.advance hkept hqueue h hm
      obtain ⟨hempty, hwalk, hmotive, hfailed', hvisits'⟩ := ih hwalk hmotive (by omega)
      rw [hnext, cascadeMoves_cons hqueue, failedBy_append, issuedBy_append,
        issuedBy_visitMoves hlive, ← List.append_assoc, ← List.append_assoc]
      refine ⟨hempty, hwalk, hmotive, hfailed'.trans ?_, hvisits'.trans ?_⟩
      · rw [hfailed, List.length_append, Nat.add_assoc]
      · rw [hvisits, List.length_append, List.length_singleton, Nat.add_assoc]

theorem walk_of_refresh (hkept : Kept fs tree.lister motive) (hw : tree.WellFormed) {s s' : σ}
    {totals : Totals} (h : refresh fs id true tree s = (.ok totals, tree', s'))
    (hfirst : ∀ {node outcome}, tree.arena.get? id = some node →
      let v := visit fs tree.lister id true false tree s
      v.answer = .ok (.applied outcome) → motive [] [id] outcome.cascade v.tree v.world) :
    let moves := refreshMoves fs id true false tree s
    (∃ start, Walk id start (failedBy moves) (issuedBy moves) [] tree') ∧
      motive (failedBy moves) (issuedBy moves) [] tree' s' ∧
      totals.failed = (failedBy moves).length ∧
      totals.nodes + totals.failed = (issuedBy moves).length := by
  dsimp only
  rw [refresh, refreshWith_eq] at h
  cases hlive : tree.arena.get? id with
  | none => simp [visit_of_dead hlive] at h
  | some node =>
    rw [refreshMoves, issuedBy_append, failedBy_append, issuedBy_visitMoves hlive, afterVisitMoves]
    cases hanswer : (visit fs tree.lister id true false tree s).answer with
    | error e => simp [hanswer] at h
    | ok application =>
      obtain ⟨⟨outcome, rfl⟩, hnone⟩ := applied_of_visit hw hlive hanswer
      rw [hnone]
      simp only [hanswer, Prod.mk.injEq, Except.ok.injEq] at h ⊢
      obtain ⟨rfl, rfl, rfl⟩ := h
      obtain ⟨_, hwalk, hmotive, hfailed, hvisits⟩ := Walk.run (c := ⟨outcome.cascade, _, _, _⟩)
        hkept ((stepped_of_visit hw hlive hanswer).walk hw) (hfirst hlive hanswer)
        (Nat.le_add_right _ _)
      refine ⟨⟨_, hwalk⟩, hmotive, hfailed.trans (Nat.zero_add _), hvisits.trans ?_⟩
      rw [List.length_append]
      rfl

/-- What the first visit of a walk establishes and every visit after it that lists its node
keeps. -/
def KeptByListing (fs : FileSystem σ) (lister : Lister)
    (motive : List NodeId → TreeView → σ → Prop) : Prop :=
  ∀ {top start visited queue tree s id node outcome}, Walk top start [] visited (id :: queue) tree →
    tree.arena.get? id = some node → motive visited tree s →
    let v := visit fs lister id true false tree s
    v.answer = .ok (.applied outcome) → motive (visited ++ [id]) v.tree v.world

theorem KeptByListing.kept {motive : List NodeId → TreeView → σ → Prop}
    (h : KeptByListing fs lister motive) :
    Kept fs lister fun failed visited _ tree s => failed = [] → motive visited tree s := by
  intro top start failed visited queue tree s id node hwalk hlive hm
  refine ⟨fun _ hfailed => ?_, fun hanswer hfailed => ?_⟩
  · simp at hfailed
  · subst hfailed
    exact h hwalk hlive (hm rfl) hanswer

/-- A recursive refresh in which nothing fails is a walk on which every node is listed. -/
theorem walk_of_full_refresh {motive : List NodeId → TreeView → σ → Prop}
    (hkept : KeptByListing fs tree.lister motive) (hw : tree.WellFormed) {s s' : σ}
    {totals : Totals} (h : refresh fs id true tree s = (.ok totals, tree', s'))
    (hfailed : totals.failed = 0)
    (hfirst : ∀ {node outcome}, tree.arena.get? id = some node →
      let v := visit fs tree.lister id true false tree s
      v.answer = .ok (.applied outcome) → motive [id] v.tree v.world) :
    ∃ start, Walk id start [] (issuedBy (refreshMoves fs id true false tree s)) [] tree' ∧
      motive (issuedBy (refreshMoves fs id true false tree s)) tree' s' := by
  obtain ⟨⟨start, hwalk⟩, hmotive, hcount, _⟩ :=
    walk_of_refresh (motive := fun failed visited _ tree s => failed = [] → motive visited tree s)
      hkept.kept hw h fun hlive hanswer _ => hfirst hlive hanswer
  have hnone : failedBy (refreshMoves fs id true false tree s) = [] :=
    List.eq_nil_of_length_eq_zero (hcount.symm.trans hfailed)
  rw [hnone] at hwalk
  exact ⟨start, hwalk, hmotive hnone⟩

/-- The nodes that a refresh of `top` covers: `top`, and every expanded child of a covered node. -/
inductive Covered (tree : TreeView) (top : NodeId) : NodeId → Prop where
  | self : Covered tree top top
  | child {parent i : NodeId} (covered : Covered tree top parent)
    (listed : i ∈ tree.children parent) (expanded : tree.arena.isExpanded i = true) :
    Covered tree top i

theorem Covered.mem (hc : tree.Covered top i) {ids : List NodeId} (htop : top ∈ ids)
    (hclosed : ∀ parent ∈ ids, ∀ child ∈ tree.children parent,
      tree.arena.isExpanded child = true → child ∈ ids) : i ∈ ids := by
  induction hc with
  | self => exact htop
  | child _ listed expanded ih => exact hclosed _ ih _ listed expanded

theorem Walk.visited_of_covered (h : Walk top start [] visited [] tree)
    (hc : tree.Covered top i) : i ∈ visited := by
  have hclosed := h.frontier
  rw [List.append_nil] at hclosed
  exact hc.mem h.top_visited fun parent hparent => hclosed parent hparent List.not_mem_nil

/-- A recursive refresh in which nothing fails refreshes everything it covers. -/
theorem issued_of_covered (hw : tree.WellFormed) {s s' : σ} {totals : Totals}
    (h : refresh fs top true tree s = (.ok totals, tree', s')) (hfailed : totals.failed = 0)
    (hc : tree'.Covered top i) : i ∈ issuedBy (refreshMoves fs top true false tree s) := by
  obtain ⟨_, hwalk, _⟩ := @walk_of_full_refresh _ _ _ _ _ (fun _ _ _ => True)
    (fun _ _ _ _ => trivial) hw s s' totals h hfailed fun _ _ => trivial
  exact hwalk.visited_of_covered hc

end TreeView

end LazyTree
