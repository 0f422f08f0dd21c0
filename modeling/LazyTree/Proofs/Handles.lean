import LazyTree.Proofs.Session
import LazyTree.Proofs.Siblings

/-!
The handles that a tree holds. A filesystem that resolves placeholders in place keeps every handle
at the path of its node, and whatever else holds of the handles it gives out holds in the tree.
-/
namespace LazyTree
variable {σ : Type} {fs : FileSystem σ} {Q : Handle → Prop} {s : σ}

/-- Placeholders are resolved in place, and `Q` holds of all handles that come from requests. -/
structure FileSystem.Gives (fs : FileSystem σ) (Q : Handle → Prop) : Prop where
  in_place : ∀ {s path found}, (fs.resolve s path).1 = .ok found → found.path = path
  resolved : ∀ {s path found}, (fs.resolve s path).1 = .ok found → Q found
  entry : ∀ {s dir entries}, (fs.enumerate s dir).1 = .ok entries →
    ∀ entry ∈ entries, Q entry.toHandle
  of_path : ∀ kind path, Q (.ofPath kind path)
  relabel : ∀ {handle} label, Q handle → Q { handle with label := label }

theorem mem_arrange {filter : NameFilter} {volumes : VolumeMap} {handle listed : Handle}
    {entries : List Entry} (h : listed ∈ arrange filter volumes handle entries) :
    (∃ entry ∈ entries, filter.shows entry = true ∧
      ∃ label, listed = { entry.toHandle with label := label }) ∨
      handle.path = volumes.remoteRoot ∧ ∃ root ∈ volumes.searchRoots, listed = root.handle := by
  have hvisible {listed : Handle} (h : listed ∈ visibleHandles filter entries) :
      ∃ entry ∈ entries, filter.shows entry = true ∧
        ∃ label, listed = { entry.toHandle with label := label } := by
    obtain ⟨entry, hentry, rfl⟩ := List.mem_map.mp h
    exact ⟨entry, List.mem_of_mem_filter hentry, (List.mem_filter.mp hentry).2, none, rfl⟩
  have hsort := mem_sortSiblings.mp h
  split at hsort
  · rename_i htop
    rw [VolumeMap.arrangeRemote, List.mem_append] at hsort
    rcases hsort with hshown | hroot
    · obtain ⟨kept, hkept, rfl⟩ := List.mem_map.mp hshown
      obtain ⟨entry, hentry, hshows, label, heq⟩ := hvisible (List.mem_of_mem_filter hkept)
      refine .inl ⟨entry, hentry, hshows, ?_⟩
      split
      · exact ⟨_, by rw [heq, Handle.labelled]⟩
      · exact ⟨label, heq⟩
    · obtain ⟨root, hmem, rfl⟩ := List.mem_map.mp hroot
      exact .inr ⟨of_decide_eq_true htop, root, hmem, rfl⟩
  · exact .inl (hvisible hsort)

theorem FileSystem.Gives.arranged (h : fs.Gives Q) {filter : NameFilter} {volumes : VolumeMap}
    {handle listed : Handle} {dir : String} {entries : List Entry}
    (henumerate : (fs.enumerate s dir).1 = .ok entries)
    (hlisted : listed ∈ arrange filter volumes handle entries) : Q listed := by
  rcases mem_arrange hlisted with ⟨entry, hentry, _, label, rfl⟩ | ⟨_, root, _, rfl⟩
  · exact h.relabel label (h.entry henumerate entry hentry)
  · exact h.relabel (some root.label) (h.of_path .searchRoot root.path)

theorem listDirectory_ok {filter : NameFilter} {volumes : VolumeMap} {handle : Handle}
    {resolved : Option Handle} {dir : String} {listing : Listing}
    (h : (listDirectory fs filter volumes handle resolved dir s).1 = .ok listing) :
    ∃ entries, (fs.enumerate s dir).1 = .ok entries ∧
      listing = ⟨resolved, arrange filter volumes handle entries⟩ := by
  unfold listDirectory at h
  split at h
  · simp at h
  · rename_i entries s' henumerate
    exact ⟨entries, by rw [henumerate], (Except.ok.inj h).symm⟩

theorem fetchVisible_ok {filter : NameFilter} {volumes : VolumeMap} {handle : Handle}
    {listing : Listing} (h : (fetchVisible fs filter volumes handle s).1 = .ok listing) :
    (handle.kind = .searchRoot ∧ listing = .empty) ∨
    (handle.kind = .real ∧
      (listDirectory fs filter volumes handle none handle.path s).1 = .ok listing) ∨
    ∃ found, handle.kind = .placeholder ∧ (fs.resolve s handle.path).1 = .ok found ∧
      found.isUnresolved = false ∧
      (listDirectory fs filter volumes handle
        (some { found with label := found.label.or handle.label }) found.path
        (fs.resolve s handle.path).2).1 = .ok listing := by
  unfold fetchVisible at h
  split at h
  · rename_i hkind
    exact .inl ⟨hkind, (Except.ok.inj h).symm⟩
  · rename_i hkind
    exact .inr (.inl ⟨hkind, h⟩)
  · rename_i hkind
    split at h
    · simp at h
    · rename_i found s' hresolve
      cases hunresolved : found.isUnresolved with
      | true => simp [hunresolved] at h
      | false =>
        refine .inr (.inr ⟨found, hkind, by rw [hresolve], hunresolved, ?_⟩)
        simpa [hunresolved, hresolve] using h

theorem FileSystem.Gives.fetched (h : fs.Gives Q) {filter : NameFilter} {volumes : VolumeMap}
    {handle : Handle} {listing : Listing}
    (hfetch : (fetchVisible fs filter volumes handle s).1 = .ok listing) :
    (∀ dir, listing.resolved = some dir → dir.path = handle.path ∧ Q dir) ∧
      ∀ listed ∈ listing.entries, Q listed := by
  rcases fetchVisible_ok hfetch with ⟨_, rfl⟩ | ⟨_, hlist⟩ | ⟨found, _, hresolve, _, hlist⟩
  · simp [Listing.empty]
  · obtain ⟨entries, henumerate, rfl⟩ := listDirectory_ok hlist
    exact ⟨by simp, fun listed => h.arranged henumerate⟩
  · obtain ⟨entries, henumerate, rfl⟩ := listDirectory_ok hlist
    have hpath : found.path = handle.path := h.in_place hresolve
    refine ⟨?_, fun listed => h.arranged henumerate⟩
    rintro dir hdir
    obtain rfl := Option.some.inj hdir
    exact ⟨hpath, h.relabel _ (h.resolved hresolve)⟩

namespace TreeView
variable {tree tree' last : TreeView} {move : Move} {moves : List Move} {node : Node} {id : NodeId}

def HandlesFit (tree : TreeView) (Q : Handle → Prop) : Prop :=
  ∀ id node, tree.arena.get? id = some node → node.handle.path = node.path ∧ Q node.handle

def childHandles (tree : TreeView) (id : NodeId) : List Handle :=
  (tree.children id).filterMap tree.arena.handle?

def childPaths (tree : TreeView) (id : NodeId) : List String :=
  (tree.children id).filterMap tree.pathOf?

theorem map_path_childHandles (h : tree.HandlesFit Q) (id : NodeId) :
    (tree.childHandles id).map Handle.path = tree.childPaths id := by
  rw [childHandles, childPaths, List.map_filterMap]
  refine List.filterMap_congr fun child _ => ?_
  cases hlive : tree.arena.get? child with
  | none => simp [Arena.handle?, pathOf?, node?, hlive]
  | some node => simp [Arena.handle?, pathOf?, node?, hlive, (h _ _ hlive).1]

theorem childPaths_of_empty (h : tree.children id = []) : tree.childPaths id = [] := by
  simp [childPaths, h]

theorem childPaths_eq {issued : List NodeId} (h : tree.WellFormed) (h' : tree'.WellFormed)
    (hevolves : Arena.Evolves issued tree.arena tree'.arena)
    (hsame : tree'.children id = tree.children id) : tree'.childPaths id = tree.childPaths id := by
  rw [childPaths, childPaths, hsame]
  refine List.filterMap_congr fun child hc => ?_
  obtain ⟨was, hwas, _⟩ := h.linked.owned hc
  obtain ⟨now, hnow, _⟩ := h'.linked.owned (hsame.symm ▸ hc)
  simp [pathOf?, node?, hnow, hwas, (hevolves.lived hwas hnow).1]

theorem map_pathOf?_children (h : tree.WellFormed) (id : NodeId) :
    (tree.children id).map tree.pathOf? = (tree.childPaths id).map some := by
  have hlive : ∀ child ∈ tree.children id, ∃ path, tree.pathOf? child = some path := by
    intro child hc
    obtain ⟨node, hlive, _⟩ := h.linked.owned hc
    exact ⟨node.path, congrArg (Option.map Node.path) hlive⟩
  rw [childPaths]
  generalize tree.children id = children at hlive ⊢
  induction children with
  | nil => rfl
  | cons child children ih =>
    obtain ⟨path, hpath⟩ := hlive child List.mem_cons_self
    rw [List.filterMap_cons_some hpath, List.map_cons, List.map_cons, hpath,
      ih fun c hc => hlive c (List.mem_cons_of_mem child hc)]

theorem handlePath_of_kept {id : NodeId} {was : Node} {listed : Handle} {children : List NodeId}
    {incoming : List Handle} (hlive : tree.arena.get? id = some was)
    (hfate : .kept id listed ∈ Fate.align tree.arena.handle? children incoming) :
    listed.path = was.handle.path := by
  have hplace := Fate.placement_of_kept hfate
  rw [Arena.handle?, hlive, Option.map_some, Fate.placement] at hplace
  exact siblingOrder_eq_iff.mp hplace

theorem HandlesFit.path_of_kept (h : tree.HandlesFit Q) {id : NodeId} {was : Node} {listed : Handle}
    {children : List NodeId} {incoming : List Handle} (hlive : tree.arena.get? id = some was)
    (hfate : .kept id listed ∈ Fate.align tree.arena.handle? children incoming) :
    listed.path = was.path := (handlePath_of_kept hlive hfate).trans (h _ _ hlive).1

theorem Applied.handlesFit {target : NodeId} {listing : Listing} {children : List NodeId}
    (ha : Applied tree tree' target node listing children) (h : tree.HandlesFit Q)
    (hlive : tree.arena.get? target = some node)
    (hresolved : ∀ dir, listing.resolved = some dir → dir.path = node.handle.path ∧ Q dir)
    (hentries : ∀ listed ∈ listing.entries, Q listed) : tree'.HandlesFit Q := by
  intro id now hnow
  cases ha.relisted.origin hnow with
  | self eq =>
    obtain ⟨hpath, hQ⟩ := h _ _ hlive
    cases hr : listing.resolved with
    | none => exact ⟨hpath, hQ⟩
    | some dir =>
      obtain ⟨hdir, hQdir⟩ := hresolved dir hr
      exact ⟨hdir.trans hpath, hQdir⟩
  | added _ _ listing => exact ⟨rfl, hentries _ listing⟩
  | kept _ live listing fated =>
    have hpath := h.path_of_kept live fated
    exact ⟨hpath, hentries _ listing⟩
  | untouched _ _ live => exact h _ _ live

theorem Applied.childHandles {target : NodeId} {listing : Listing} {children : List NodeId}
    (ha : Applied tree tree' target node listing children) :
    tree'.childHandles target = listing.entries := by
  have hchildren : tree'.children target = children := Arena.childrenOf_of_live ha.relisted.self
  have hhandles := congrArg (List.filterMap id) (Arena.map_handle?_of_placed ha.relisted.placed)
  rw [TreeView.childHandles, hchildren]
  simpa [List.filterMap_map] using hhandles

theorem HandlesFit.act (h : tree.HandlesFit Q) (hw : tree.WellFormed) (hgives : fs.Gives Q)
    (allowed : tree.Allows fs move) : (tree.act move).HandlesFit Q := by
  rcases act_cases hw allowed with
    ⟨_, _, _, _, _, _, _, _, hlive, happlied, hpath, hfetch⟩ | hsame | hnew
  · obtain ⟨hresolved, hentries⟩ := hgives.fetched hfetch
    exact happlied.handlesFit h hlive (hpath ▸ hresolved) hentries
  · intro id node hlive
    obtain ⟨was, hwas, heq⟩ := Arena.live_of_map_get?_eq (hsame id).symm hlive
    obtain ⟨hpath, hhandle, _⟩ : was.path = node.path ∧ was.handle = node.handle ∧ _ := by
      simpa [Node.face] using heq
    obtain ⟨hfit, hQ⟩ := h _ _ hwas
    exact hpath ▸ hhandle ▸ ⟨hfit, hQ⟩
  · intro id node hlive
    obtain ⟨top, hface⟩ := hnew id node hlive
    obtain ⟨hpath, hhandle, _⟩ : node.path = top ∧ node.handle = .placeholder top ∧ _ := by
      simpa [Node.face] using hface
    exact hpath ▸ hhandle ▸ ⟨rfl, hgives.of_path .placeholder top⟩

theorem Run.handlesFit (h : Run fs tree moves last) (hw : tree.WellFormed)
    (hgives : fs.Gives Q) (hfit : tree.HandlesFit Q) : last.HandlesFit Q := by
  induction h with
  | nil => exact hfit
  | @cons tree last move moves allowed rest ih =>
    exact ih (hw.act allowed) (hfit.act hw hgives allowed)

/-- The ticket was issued for a node that exists or has existed, and for that node's directory. -/
def Knows (tree : TreeView) (ticket : Ticket) : Prop :=
  ticket.node < tree.arena.nextId ∧
    ∀ node, tree.arena.get? ticket.node = some node → ticket.handle.path = node.path

theorem Knows.evolves {issued : List NodeId} {ticket : Ticket} (h : tree.Knows ticket)
    (hevolves : Arena.Evolves issued tree.arena tree'.arena) : tree'.Knows ticket := by
  refine ⟨Nat.lt_of_lt_of_le h.1 hevolves.grows, fun node hlive => ?_⟩
  obtain ⟨was, hwas, hpath, _⟩ := hevolves.old hlive h.1
  exact (h.2 was hwas).trans hpath.symm

end TreeView

namespace Session
variable {x : Session σ}

/-- Every handle in a session fits its node, also those on tickets, and every result is what was
fetched for its ticket. -/
structure Fits (fs : FileSystem σ) (Q : Handle → Prop) (x : Session σ) : Prop where
  handles : x.tree.HandlesFit Q
  tickets : ∀ ticket ∈ x.tickets, x.tree.Knows ticket
  results : ∀ {ticket fetched}, (ticket, fetched) ∈ x.results → ticket ∈ x.tickets ∧
    ∀ listing, fetched = .ok listing → ∃ filter volumes s,
      (fetchVisible fs filter volumes ticket.handle s).1 = .ok listing

theorem Effect.run {moves : List Move} {tree : TreeView} (h : Effect fs x moves tree)
    (hw : x.tree.WellFormed) (hfit : x.Fits fs Q) : TreeView.Run fs x.tree moves tree := by
  cases h with
  | none => exact .nil
  | operated operation => exact operation.run hw fs x.world
  | issued recursive live => exact .single trivial
  | @applied ticket fetched known =>
    have hticket : ticket ∈ x.tickets := known.elim (fun h => (hfit.results h).1) (·.1)
    refine .single ⟨fun node hlive => ?_, fun listing hlisting => ?_⟩
    · exact ((hfit.tickets ticket hticket).2 node hlive).trans (hfit.handles _ _ hlive).1.symm
    · rcases known with hresult | ⟨_, e, he⟩
      · exact (hfit.results hresult).2 listing hlisting
      · simp [he] at hlisting

theorem fits_start (fs : FileSystem σ) (Q : Handle → Prop) (filter : NameFilter)
    (volumes : VolumeMap) (world : σ) : (start filter volumes world).Fits fs Q where
  handles := by
    intro id node hlive
    simp [start, TreeView.unbound] at hlive
  tickets := by simp [start]
  results := by simp [start]

theorem tickets_of_not_issue {action : Action σ}
    (h : ∀ id recursive, action ≠ .issue id recursive) :
    (x.act fs action).tickets = x.tickets := by
  cases action with
  | operate operation => rfl
  | issue id recursive => exact absurd rfl (h id recursive)
  | keepLister => rfl
  | fetch i j => simp only [act]; split <;> rfl
  | apply k => simp only [act]; split <;> rfl
  | applyFailure i failure => simp only [act]; split <;> rfl
  | drift world => rfl

theorem results_of_not_fetch {action : Action σ} (h : ∀ i j, action ≠ .fetch i j) :
    (x.act fs action).results = x.results := by
  cases action with
  | operate operation => rfl
  | issue id recursive => simp only [act]; split <;> rfl
  | keepLister => rfl
  | fetch i j => exact absurd rfl (h i j)
  | apply k => simp only [act]; split <;> rfl
  | applyFailure i failure => simp only [act]; split <;> rfl
  | drift world => rfl

theorem tickets_subset_act (fs : FileSystem σ) (x : Session σ) (action : Action σ) :
    ∀ ticket ∈ x.tickets, ticket ∈ (x.act fs action).tickets := by
  intro ticket hticket
  cases action with
  | issue id recursive =>
    simp only [act]
    split
    · exact List.mem_append_left _ hticket
    · exact hticket
  | _ => rwa [tickets_of_not_issue (by simp)]

theorem tickets_act (hw : x.tree.WellFormed) (hfit : x.Fits fs Q) (action : Action σ) :
    ∀ ticket ∈ (x.act fs action).tickets, (x.act fs action).tree.Knows ticket := by
  have hold : ∀ ticket ∈ x.tickets, (x.act fs action).tree.Knows ticket := fun ticket hticket =>
    (hfit.tickets ticket hticket).evolves ((effect_act fs x action).evolves hw)
  cases action with
  | issue id recursive =>
    cases hlive : x.tree.arena.get? id with
    | none => simpa [act, TreeView.issue_of_dead hlive] using hold
    | some node =>
      have hissued := TreeView.get?_bumped hlive
      simp only [act, TreeView.issue_of_live hlive] at hold ⊢
      intro ticket hticket
      rcases List.mem_append.mp hticket with hticket | hticket
      · exact hold ticket hticket
      · obtain rfl := List.mem_singleton.mp hticket
        refine ⟨(Arena.id_bounds hissued).2, fun node' hlive' => ?_⟩
        obtain rfl := Option.some.inj (hissued.symm.trans hlive')
        exact (hfit.handles _ _ hlive).1
  | _ =>
    rw [tickets_of_not_issue (by simp)]
    exact hold

theorem results_act (hfit : x.Fits fs Q) (action : Action σ) {ticket : Ticket}
    {fetched : Except Failure Listing} (hmem : (ticket, fetched) ∈ (x.act fs action).results) :
    ticket ∈ (x.act fs action).tickets ∧
      ∀ listing, fetched = .ok listing → ∃ filter volumes s,
        (fetchVisible fs filter volumes ticket.handle s).1 = .ok listing := by
  suffices h : ticket ∈ x.tickets ∧ ∀ listing, fetched = .ok listing → ∃ filter volumes s,
      (fetchVisible fs filter volumes ticket.handle s).1 = .ok listing from
    ⟨tickets_subset_act fs x action ticket h.1, h.2⟩
  cases action with
  | fetch i j =>
    simp only [act] at hmem
    split at hmem
    · rename_i issued lister hi _
      rcases List.mem_append.mp hmem with hmem | hmem
      · exact hfit.results hmem
      · obtain ⟨rfl, rfl⟩ := Prod.mk.inj (List.mem_singleton.mp hmem)
        exact ⟨List.mem_of_getElem? hi, fun listing hlisting => ⟨_, _, x.world, hlisting⟩⟩
    · exact hfit.results hmem
  | _ =>
    rw [results_of_not_fetch (by simp)] at hmem
    exact hfit.results hmem

theorem fits_act (hw : x.tree.WellFormed) (hgives : fs.Gives Q) (hfit : x.Fits fs Q)
    (action : Action σ) : (x.act fs action).Fits fs Q where
  handles := ((effect_act fs x action).run hw hfit).handlesFit hw hgives hfit.handles
  tickets := tickets_act hw hfit action
  results := results_act hfit action

theorem fits_run (hw : x.tree.WellFormed) (hgives : fs.Gives Q) (hfit : x.Fits fs Q)
    (actions : List (Action σ)) : (x.run fs actions).Fits fs Q := by
  induction actions generalizing x with
  | nil => exact hfit
  | cons action actions ih =>
    exact ih ((effect_act fs x action).wellFormed hw) (fits_act hw hgives hfit action)

end Session

end LazyTree
