import LazyTree.Proofs.Expansion
import LazyTree.Proofs.MergeOutcome
import LazyTree.Proofs.Visited

/-!
Nodes at rest. A node rests when its children are what its directory lists, each with a handle as
good as the entry it stands for. A visit leaves its node at rest, and a visit of a node at rest
changes nothing that the next one could find out.
-/
namespace LazyTree
variable {σ : Type} {fs : FileSystem σ} {s t : σ} {lister : Lister}

theorem Fate.filterMap_place?_align {handleOf : NodeId → Option Handle} {children : List NodeId}
    {incoming : List Handle} (h : children.map (fun child => (handleOf child).map Handle.path) =
      incoming.map fun listed => some listed.path) :
    (align handleOf children incoming).filterMap place? = children.map some := by
  induction children generalizing incoming with
  | nil =>
    obtain rfl : incoming = [] := List.map_eq_nil_iff.mp h.symm
    simp [align]
  | cons child children ih =>
    cases incoming with
    | nil => simp at h
    | cons listed incoming =>
      obtain ⟨hfirst, hrest⟩ := List.cons.inj h
      obtain ⟨handle, hhandle, hpath⟩ := Option.map_eq_some_iff.mp hfirst
      have hplace : placement listed (handleOf child) = .eq := by
        rw [hhandle]
        exact siblingOrder_eq_iff.mpr hpath.symm
      rw [align, hplace]
      exact congrArg (List.cons (some child)) (ih hrest)

namespace Arena.Relisted
variable {before after : Arena} {parent id : NodeId} {node : Node} {incoming : List Handle}
variable {keepOpen : Bool} {children : List NodeId}

theorem children_eq (h : Relisted before after parent node incoming keepOpen children)
    (hold : ∀ child ∈ node.children, child < before.nextId)
    (hmatch : node.children.map (fun child => (before.handle? child).map Handle.path) =
      incoming.map fun listed => some listed.path) : children = node.children := by
  have hplaces := h.places before.nextId (Nat.le_refl _) hold
  rw [Fate.filterMap_place?_align hmatch] at hplaces
  have hsome : children.map (older? before.nextId) = children.map some := by
    refine List.map_congr_left fun child hc => ?_
    have hmem : older? before.nextId child ∈ node.children.map some :=
      hplaces ▸ List.mem_map_of_mem hc
    obtain ⟨old, _, heq⟩ := List.mem_map.mp hmem
    obtain ⟨hlt, _⟩ := older?_eq_some_iff.mp heq.symm
    exact older?_of_lt hlt
  exact List.map_injective_iff.mpr (fun _ _ => Option.some.inj) (hsome.symm.trans hplaces)

theorem frame_of_children_eq (h : Relisted before after parent node incoming keepOpen children)
    (hl : before.Linked) (hlisted : ∀ child ∈ before.childrenOf parent, child ∈ children)
    (hne : id ≠ parent) (hid : id ∉ children) : after.get? id = before.get? id := by
  rcases h.frame id hne hid with hsame | ⟨_, hunder⟩
  · exact hsame
  · obtain ⟨child, hc, hunder⟩ := hl.lists_below hunder hne
    refine h.below_kept hl (hlisted child hc) hunder ?_
    rintro rfl
    exact hid (hlisted id hc)

end Arena.Relisted

namespace Lister
variable {handle : Handle} {listing : Listing}

/-- The path of a handle, and what it lists if its directory can be listed. -/
def finding (lister : Lister) (fs : FileSystem σ) (s : σ) (handle : Handle) :
    String × Option (List Handle) :=
  (handle.path,
    (fetchVisible fs lister.filter lister.volumes handle s).1.toOption.map Listing.entries)

theorem finding_of_ok
    (h : (fetchVisible fs lister.filter lister.volumes handle s).1 = .ok listing) :
    lister.finding fs s handle = (handle.path, some listing.entries) := by
  rw [finding, h]
  rfl

theorem finding_of_error {e : Failure}
    (h : (fetchVisible fs lister.filter lister.volumes handle s).1 = .error e) :
    lister.finding fs s handle = (handle.path, none) := by
  rw [finding, h]
  rfl

theorem finding_resolved (hs : fs.Steady s) (hfs : fs.ResolvesInPlace)
    (h : (fetchVisible fs lister.filter lister.volumes handle s).1 = .ok listing) :
    lister.finding fs s (listing.resolved.getD handle) = lister.finding fs s handle := by
  obtain ⟨again, hagain, hentries⟩ := fetchVisible_again hs hfs h
  rw [finding_of_ok h, finding_of_ok hagain, hentries]
  congr 1
  cases hresolved : listing.resolved with
  | none => rfl
  | some dir => exact ((hfs.gives.fetched h).1 dir hresolved).1

end Lister

/-- What is shown of a node, and what a refresh would find out about it. -/
structure Outlook where
  children : List NodeId
  expanded : Bool
  finding : String × Option (List Handle)

def Node.outlook (fs : FileSystem σ) (lister : Lister) (s : σ) (node : Node) : Outlook :=
  ⟨node.children, node.expanded, lister.finding fs s node.handle⟩

namespace TreeView
variable {tree tree' tree'' : TreeView} {id i : NodeId} {node : Node} {listing : Listing}
variable {children : List NodeId} {recursive always : Bool} {outcome : MergeOutcome}

/-- Every slot has the outlook that it had. -/
def LooksAs (fs : FileSystem σ) (lister : Lister) (s : σ) (tree tree' : TreeView) : Prop :=
  ∀ i, (tree'.arena.get? i).map (Node.outlook fs lister s) =
    (tree.arena.get? i).map (Node.outlook fs lister s)

namespace LooksAs

theorem trans (h : tree.LooksAs fs lister s tree') (h' : tree'.LooksAs fs lister s tree'') :
    tree.LooksAs fs lister s tree'' := fun i => (h' i).trans (h i)

theorem map_eq (h : tree.LooksAs fs lister s tree') {β : Type} (view : Outlook → β) (i : NodeId) :
    (tree'.arena.get? i).map (fun node => view (node.outlook fs lister s)) =
      (tree.arena.get? i).map fun node => view (node.outlook fs lister s) := by
  simpa only [Option.map_map, Function.comp_def] using congrArg (Option.map view) (h i)

theorem holds_eq (h : tree.LooksAs fs lister s tree') (i : NodeId) :
    tree'.holds i = tree.holds i := Arena.contains_congr (h i)

theorem children_eq (h : tree.LooksAs fs lister s tree') (i : NodeId) :
    tree'.children i = tree.children i := by
  rw [children, children, Arena.childrenOf_eq_getD, Arena.childrenOf_eq_getD]
  exact congrArg (Option.getD · []) (h.map_eq Outlook.children i)

theorem isExpanded_eq (h : tree.LooksAs fs lister s tree') (i : NodeId) :
    tree'.arena.isExpanded i = tree.arena.isExpanded i :=
  Arena.isExpanded_congr (h.map_eq Outlook.expanded i)

end LooksAs

theorem looksAs_bumped (tree : TreeView) (id : NodeId) :
    tree.LooksAs fs lister s (tree.bumped id) :=
  map_get?_bumped (fun _ _ => by rfl) tree id

theorem looksAs_visitChecks (id : NodeId) (always : Bool) (outcome : MergeOutcome)
    (tree : TreeView) (t : σ) :
    tree.LooksAs fs lister s (visitChecks fs lister id always outcome tree t).tree :=
  map_get?_visitChecks (fun _ _ => by rfl) fs lister id always outcome tree t

def finding? (fs : FileSystem σ) (lister : Lister) (s : σ) (tree : TreeView) (id : NodeId) :
    Option (String × Option (List Handle)) :=
  (tree.arena.handle? id).map (lister.finding fs s)

theorem finding?_of_live (h : tree.arena.get? id = some node) :
    tree.finding? fs lister s id = some (lister.finding fs s node.handle) := by
  simp [finding?, Arena.handle?, h]

theorem LooksAs.finding?_eq (h : tree.LooksAs fs lister s tree') (i : NodeId) :
    tree'.finding? fs lister s i = tree.finding? fs lister s i := by
  simp only [finding?, Arena.handle?, Option.map_map]
  exact h.map_eq Outlook.finding i

/-- The children of the node are what it lists, each with a handle as good as its entry; and if it
has none, that is shown. -/
def Rests (fs : FileSystem σ) (lister : Lister) (s : σ) (tree : TreeView) (id : NodeId) : Prop :=
  ∃ node entries, tree.arena.get? id = some node ∧
    (lister.finding fs s node.handle).2 = some entries ∧
    node.children.map (tree.finding? fs lister s) =
      entries.map (fun listed => some (lister.finding fs s listed)) ∧
    (node.expanded = true → node.children = [] → tree.root = some id)

theorem Rests.congr (h : tree.Rests fs lister s id) (hroot : tree'.root = tree.root)
    (hself : (tree'.arena.get? id).map (Node.outlook fs lister s) =
      (tree.arena.get? id).map (Node.outlook fs lister s))
    (hchildren : ∀ child ∈ tree.children id,
      tree'.finding? fs lister s child = tree.finding? fs lister s child) :
    tree'.Rests fs lister s id := by
  obtain ⟨node, entries, hlive, hoffers, hstand, hopen⟩ := h
  obtain ⟨now, hnow, hsame⟩ := Arena.live_of_map_get?_eq hself hlive
  obtain ⟨hlists, hexpanded, hfinding⟩ : now.children = node.children ∧
      now.expanded = node.expanded ∧
      lister.finding fs s now.handle = lister.finding fs s node.handle := by
    simpa [Node.outlook] using hsame
  have hlisted : tree.children id = node.children := Arena.childrenOf_of_live hlive
  refine ⟨now, entries, hnow, hfinding ▸ hoffers, ?_, ?_⟩
  · rw [hlists, ← hstand]
    exact List.map_congr_left fun child hc => hchildren child (hlisted ▸ hc)
  · rw [hlists, hexpanded, hroot]
    exact hopen

theorem Rests.looksAs (h : tree.Rests fs lister s id) (hroot : tree'.root = tree.root)
    (hlooks : tree.LooksAs fs lister s tree') : tree'.Rests fs lister s id :=
  h.congr hroot (hlooks id) fun child _ => hlooks.finding?_eq child

theorem root_visit (hw : tree.WellFormed) (fs : FileSystem σ) (lister : Lister) (id : NodeId)
    (recursive always : Bool) (t : σ) :
    (visit fs lister id recursive always tree t).tree.root = tree.root :=
  root_of_frame
    ((visit_run fs lister id recursive always tree t).frame hw (refreshes_visitMoves ..))

theorem finding?_visit (hs : fs.Steady s) (ht : fs.Asked s t) (hfs : fs.ResolvesInPlace)
    (hw : tree.WellFormed) (hlive : tree.arena.get? id = some node) (lister : Lister)
    (recursive always : Bool) :
    (visit fs lister id recursive always tree t).tree.finding? fs lister s id =
      tree.finding? fs lister s id := by
  rcases visit_of_live hw hlive fs lister recursive always t with
    ⟨e, _, heq⟩ | ⟨listing, outcome, listed, children, hfetch, ha, _, heq⟩
  · rw [heq]
    exact (looksAs_bumped tree id).finding?_eq id
  · rw [fetchVisible_steady hs ht] at hfetch
    rw [heq, (looksAs_visitChecks id always outcome listed _).finding?_eq id,
      finding?_of_live ha.relisted.self, finding?_of_live hlive]
    exact congrArg some (Lister.finding_resolved hs hfs hfetch)

theorem Applied.findings (ha : Applied tree tree' id node listing children) :
    children.map (tree'.finding? fs lister s) =
      listing.entries.map fun listed => some (lister.finding fs s listed) := by
  have hhandles := congrArg (List.map (Option.map (lister.finding fs s)))
    (Arena.map_handle?_of_placed ha.relisted.placed)
  simp only [List.map_map, Function.comp_def, Option.map_some] at hhandles
  exact hhandles

theorem rests_of_visit (hs : fs.Steady s) (ht : fs.Asked s t) (hfs : fs.ResolvesInPlace)
    (hw : tree.WellFormed) (hlive : tree.arena.get? id = some node)
    (happlied : (visit fs lister id recursive always tree t).answer = .ok (.applied outcome)) :
    (visit fs lister id recursive always tree t).tree.Rests fs lister s id := by
  have hroot := root_visit hw fs lister id recursive always t
  rcases visit_of_live hw hlive fs lister recursive always t with
    ⟨e, _, heq⟩ | ⟨listing, _, listed, children, hfetch, ha, _, heq⟩
  · simp [heq] at happlied
  · rw [fetchVisible_steady hs ht] at hfetch
    rw [heq] at hroot ⊢
    have hrests : listed.Rests fs lister s id := by
      refine ⟨_, listing.entries, ha.relisted.self, ?_, ha.findings, ?_⟩
      · exact congrArg Prod.snd
          ((Lister.finding_resolved hs hfs hfetch).trans (Lister.finding_of_ok hfetch))
      · intro hexpanded hempty
        obtain rfl : children = [] := hempty
        have hopen : node.expanded = true ∧ (tree.bumped id).root = some id := by
          simpa [Node.relisted] using hexpanded
        exact ha.same_root.trans hopen.2
    exact hrests.looksAs (hroot.trans ha.same_root.symm) (looksAs_visitChecks _ _ _ _ _)

theorem applyFetched_counts {ticket : Ticket} (h : tree.WellFormed)
    (hlive : tree.arena.get? ticket.node = some node) (hgen : node.generation = ticket.generation)
    (happly : tree.applyFetched ticket (.ok listing) = (.ok (.applied outcome), tree')) :
    outcome.inserted + outcome.retained = (tree'.children ticket.node).length ∧
      outcome.retained + outcome.removed = node.children.length ∧
      outcome.retained = (tree'.children ticket.node).countP tree.holds := by
  obtain ⟨adopted, hadopted⟩ : ∃ adopted,
      adopted = (tree.adoptResolved ticket.node listing.resolved).arena := ⟨_, rfl⟩
  have heq := adoptResolved_eq tree ticket.node listing.resolved
  have hforest := (h.adoptResolved ticket.node listing.resolved).linked.forest
  have hself := get?_adoptResolved_self hlive listing.resolved
  have hholds (i : NodeId) : adopted.contains i = tree.holds i := by
    have hsame := @map_get?_adoptResolved tree _ Node.parent (fun _ _ => rfl) ticket.node
      listing.resolved i
    rw [← hadopted] at hsame
    simpa [holds, Arena.contains] using congrArg Option.isSome hsame
  rw [← hadopted] at heq hforest hself
  obtain ⟨merged, hm, hcarried, hmerge⟩ := Arena.mergeListing_eq hforest hself listing.entries
    ticket.recursive (tree.root = some ticket.node)
  have hconverged := hcarried.converged hforest hself hm (tree.root = some ticket.node)
  simp only [applyFetched, node?, hlive, hgen, ne_eq, not_true_eq_false, if_false, mergeFetched,
    heq, hmerge, Prod.mk.injEq, Except.ok.injEq, Application.applied.injEq] at happly
  obtain ⟨rfl, rfl⟩ := happly
  simp only [children, dropDeadSelection_arena]
  have hlength := congrArg List.length hconverged.handles
  rw [List.length_map, List.length_map] at hlength
  refine ⟨hconverged.inserted.trans hlength.symm, hconverged.removed, ?_⟩
  rw [hconverged.retained]
  exact List.countP_congr fun i _ => by rw [hholds]

theorem visit_counts (hw : tree.WellFormed) (hlive : tree.arena.get? id = some node)
    (happlied : (visit fs lister id recursive always tree t).answer = .ok (.applied outcome)) :
    let after := (visit fs lister id recursive always tree t).tree
    outcome.inserted + outcome.retained = (after.children id).length ∧
      outcome.retained + outcome.removed = (tree.children id).length ∧
      outcome.retained = (after.children id).countP tree.holds := by
  have hholds (i : NodeId) : (tree.bumped id).holds i = tree.holds i :=
    (@looksAs_bumped _ fs t lister tree id).holds_eq i
  simp only [visit, issue_of_live hlive, Lister.fetch] at happlied ⊢
  cases hfetch : (fetchVisible fs lister.filter lister.volumes node.handle t).1 with
  | error e =>
    have hself := get?_bumped hlive
    simp [hfetch, applyFetched, node?, hself] at happlied
  | ok listing =>
    obtain ⟨merged, listed, children, happly, _⟩ :=
      @applyFetched_current _ _ ⟨id, node.generation + 1, node.handle, recursive⟩ (hw.bumped id)
        (get?_bumped hlive) rfl listing
    simp only [hfetch, happly, visitChecks_answer, Except.ok.injEq, Application.applied.injEq,
      children_visitChecks] at happlied ⊢
    subst happlied
    have hcounts := applyFetched_counts (hw.bumped id) (get?_bumped hlive) rfl happly
    have hlisted : tree.children id = node.children := Arena.childrenOf_of_live hlive
    rw [hlisted]
    refine ⟨hcounts.1, hcounts.2.1, hcounts.2.2.trans ?_⟩
    exact List.countP_congr fun i _ => by rw [hholds]

theorem Applied.looksAs (ha : Applied tree tree' id node listing children) (hw : tree.WellFormed)
    (hlive : tree.arena.get? id = some node) (h : tree.Rests fs lister s id)
    (hlisted : (lister.finding fs s node.handle).2 = some listing.entries)
    (hresolved : lister.finding fs s (listing.resolved.getD node.handle) =
      lister.finding fs s node.handle) : tree.LooksAs fs lister s tree' := by
  obtain ⟨was, entries, hwas, hoffers, hstand, hopen⟩ := h
  obtain rfl := Option.some.inj (hlive.symm.trans hwas)
  obtain rfl := Option.some.inj (hlisted.symm.trans hoffers)
  have hself : tree.arena.childrenOf id = node.children := Arena.childrenOf_of_live hlive
  have hsame : children = node.children := by
    refine ha.relisted.children_eq (fun child hc => ?_) ?_
    · obtain ⟨_, hchild, _⟩ := hw.linked.owned (hself.symm ▸ hc)
      exact (Arena.id_bounds hchild).2
    · have hpaths := congrArg (List.map (Option.map Prod.fst)) hstand
      simpa only [finding?, Lister.finding, List.map_map, Function.comp_def, Option.map_map,
        Option.map_some] using hpaths
  subst hsame
  intro i
  by_cases hid : i = id
  · subst hid
    have hexpanded : (node.expanded && (!node.children.isEmpty || tree.root = some i)) =
        node.expanded := by
      cases hexpanded : node.expanded with
      | false => rfl
      | true =>
        cases hempty : node.children with
        | nil => simp [hopen hexpanded hempty]
        | cons _ _ => rfl
    rw [ha.relisted.self, hlive]
    simp only [Option.map_some, Node.outlook, Node.relisted, hresolved, hexpanded]
  · by_cases hc : i ∈ node.children
    · obtain ⟨was, hwas, _⟩ := hw.linked.owned (hself.symm ▸ hc)
      obtain ⟨_, listed, _, _, hnow⟩ := ha.relisted.of_kept hw.linked hc hwas
      have hfinding := List.map_inj_left.mp (hstand.trans ha.findings.symm) i hc
      rw [finding?_of_live hwas, finding?_of_live hnow] at hfinding
      rw [hwas, hnow]
      simp only [Option.map_some, Node.outlook, Option.some.inj hfinding]
    · rw [ha.relisted.frame_of_children_eq hw.linked (fun child hchild => hself ▸ hchild) hid hc]

theorem visit_of_rests (hs : fs.Steady s) (ht : fs.Asked s t) (hfs : fs.ResolvesInPlace)
    (hw : tree.WellFormed) (h : tree.Rests fs lister s id) (recursive always : Bool) :
    let v := visit fs lister id recursive always tree t
    ∃ outcome, v.answer = .ok (.applied outcome) ∧ outcome.inserted = 0 ∧ outcome.removed = 0 ∧
      tree.LooksAs fs lister s v.tree := by
  intro v
  have hrests := h
  obtain ⟨node, entries, hlive, hoffers, _⟩ := h
  rcases visit_of_live hw hlive fs lister recursive always t with
    ⟨e, hfetch, _⟩ | ⟨listing, outcome, listed, children, hfetch, ha, _, heq⟩
  · rw [fetchVisible_steady hs ht] at hfetch
    simp [Lister.finding_of_error hfetch] at hoffers
  · rw [fetchVisible_steady hs ht] at hfetch
    have hanswer : v.answer = .ok (.applied outcome) :=
      (congrArg Visit.answer heq).trans (visitChecks_answer ..)
    have hlooks : tree.LooksAs fs lister s v.tree := by
      have hlisted : (tree.bumped id).LooksAs fs lister s listed :=
        ha.looksAs (hw.bumped id) (get?_bumped hlive) (hrests.looksAs rfl (looksAs_bumped tree id))
          (congrArg Prod.snd (Lister.finding_of_ok hfetch))
          (Lister.finding_resolved hs hfs hfetch)
      refine ((looksAs_bumped tree id).trans hlisted).trans ?_
      simp only [v, heq]
      exact looksAs_visitChecks _ _ _ _ _
    obtain ⟨hinserted, hremoved, hretained⟩ := visit_counts hw hlive hanswer
    rw [hlooks.children_eq id] at hinserted hretained
    have hall : (tree.children id).countP tree.holds = (tree.children id).length := by
      refine List.countP_eq_length.mpr fun child hc => ?_
      obtain ⟨was, hwas, _⟩ := hw.linked.owned hc
      exact Arena.contains_iff.mpr ⟨was, hwas⟩
    exact ⟨outcome, hanswer, by omega, by omega, hlooks⟩

end TreeView

end LazyTree
