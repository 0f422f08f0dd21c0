import LazyTree.Proofs.Paths
import LazyTree.Proofs.Scope

/-!
Where nodes lie. A filesystem that lists items right below the directory it was asked for lets a
tree descend from its top name by name. Shortcuts lie elsewhere and list nothing, so every node that
is not a shortcut, and every node with children, has come down from the top.
-/
namespace LazyTree
variable {σ : Type} {fs : FileSystem σ} {scope : Scope} {P : String → Prop}

/-- What a filter shows of a directory lies right below it, by a name of which `P` holds, and
placeholders are resolved in place. -/
structure FileSystem.ListsBelow (fs : FileSystem σ) (Filter : NameFilter → Prop)
    (P : String → Prop) : Prop where
  listed : ∀ {s dir entries filter}, (fs.enumerate s dir).1 = .ok entries → Filter filter →
    ∀ entry ∈ entries, filter.shows entry = true →
      entry.path = Path.child dir entry.name ∧ P entry.name
  in_place : ∀ {s path found}, (fs.resolve s path).1 = .ok found → found.path = path

/-- What a filter shows of a directory lies right below it, whatever name it is shown by. -/
structure FileSystem.LaysBelow (fs : FileSystem σ) (Filter : NameFilter → Prop)
    (P : String → Prop) : Prop where
  listed : ∀ {s dir entries filter}, (fs.enumerate s dir).1 = .ok entries → Filter filter →
    ∀ entry ∈ entries, filter.shows entry = true →
      ∃ name, P name ∧ entry.path = Path.child dir name
  in_place : ∀ {s path found}, (fs.resolve s path).1 = .ok found → found.path = path

theorem FileSystem.ListsBelow.lays {Filter : NameFilter → Prop} (h : fs.ListsBelow Filter P) :
    fs.LaysBelow Filter P where
  listed := by
    intro s dir entries filter henumerate hfilter entry hmem hshows
    obtain ⟨hpath, hname⟩ := h.listed henumerate hfilter entry hmem hshows
    exact ⟨entry.name, hname, hpath⟩
  in_place := h.in_place

/-- A path that leads down by names from a top. -/
inductive Scope.Leads (scope : Scope) (P : String → Prop) : String → Prop where
  | top {path : String} (bound : scope.Top path) : Leads scope P path
  | child {dir name : String} (lead : Leads scope P dir) (named : P name) :
    Leads scope P (Path.child dir name)

def VolumeMap.Shortcut (volumes : VolumeMap) (handle : Handle) : Prop :=
  ∃ root ∈ volumes.searchRoots, handle = root.handle

theorem VolumeMap.Shortcut.kind {volumes : VolumeMap} {handle : Handle}
    (h : volumes.Shortcut handle) : handle.kind = .searchRoot := by
  obtain ⟨root, _, rfl⟩ := h
  rfl

/-- What is fetched for a handle: nothing for a shortcut, else what lies below the handle's path
and, at the remote root, the shortcuts. -/
theorem FileSystem.LaysBelow.fetched (h : fs.LaysBelow scope.Filter P) {handle : Handle}
    {listing : Listing} (hfetched : scope.Fetched fs handle listing) :
    (∀ dir, listing.resolved = some dir →
      dir.path = handle.path ∧ ¬ scope.volumes.Shortcut handle) ∧
    ∀ listed ∈ listing.entries, ¬ scope.volumes.Shortcut handle ∧
      ((∃ name, P name ∧ listed.path = Path.child handle.path name) ∨
        handle.path = scope.volumes.remoteRoot ∧ scope.volumes.Shortcut listed) := by
  obtain ⟨filter, s, hfilter, hfetch⟩ := hfetched
  have hlisted {dir : String} {entries : List Entry} {s : σ} {listed : Handle}
      (henumerate : (fs.enumerate s dir).1 = .ok entries) (hdir : dir = handle.path)
      (hmem : listed ∈ arrange filter scope.volumes handle entries) :
      (∃ name, P name ∧ listed.path = Path.child handle.path name) ∨
        handle.path = scope.volumes.remoteRoot ∧ scope.volumes.Shortcut listed := by
    rcases mem_arrange hmem with ⟨entry, hentry, hshows, label, rfl⟩ | ⟨htop, root, hroot, rfl⟩
    · obtain ⟨name, hname, hpath⟩ := h.listed henumerate hfilter entry hentry hshows
      exact .inl ⟨name, hname, hdir ▸ hpath⟩
    · exact .inr ⟨htop, root, hroot, rfl⟩
  rcases fetchVisible_ok hfetch with ⟨_, rfl⟩ | ⟨hkind, hlist⟩ | ⟨found, hkind, hresolve, _, hlist⟩
  · simp [Listing.empty]
  · have hplain : ¬ scope.volumes.Shortcut handle := fun hs => by simp [hs.kind] at hkind
    obtain ⟨entries, henumerate, rfl⟩ := listDirectory_ok hlist
    exact ⟨by simp, fun listed hmem => ⟨hplain, hlisted henumerate rfl hmem⟩⟩
  · have hplain : ¬ scope.volumes.Shortcut handle := fun hs => by simp [hs.kind] at hkind
    obtain ⟨entries, henumerate, rfl⟩ := listDirectory_ok hlist
    have hpath : found.path = handle.path := h.in_place hresolve
    refine ⟨fun dir hdir => ?_, fun listed hmem => ⟨hplain, hlisted henumerate hpath hmem⟩⟩
    obtain rfl := Option.some.inj hdir
    exact ⟨hpath, hplain⟩

namespace Arena
variable {arena before after : Arena} {id : NodeId} {node : Node} {issued : List NodeId}

/-- The node is the top, or its path adds a name to that of a node that descends. -/
inductive Descends (P : String → Prop) (arena : Arena) : NodeId → Prop where
  | top {id : NodeId} {node : Node} (live : arena.get? id = some node) (up : node.parent = none) :
    Descends P arena id
  | child {id parent : NodeId} {node above : Node} {name : String}
      (live : arena.get? id = some node) (up : node.parent = some parent)
      (upper : arena.get? parent = some above) (named : P name)
      (path : node.path = Path.child above.path name) (rest : Descends P arena parent) :
    Descends P arena id

theorem Descends.evolves (h : before.Descends P id) (hevolves : Evolves issued before after)
    (hlinked : after.Linked) (hlive : after.get? id = some node) : after.Descends P id := by
  induction h generalizing node with
  | top live up =>
    exact .top hlive ((hevolves.lived live hlive).2.trans up)
  | @child id parent was above name live up upper named path rest ih =>
    obtain ⟨hpath, hparent⟩ := hevolves.lived live hlive
    have hup : node.parent = some parent := hparent.trans up
    obtain ⟨above', habove⟩ := hlinked.parent_live hlive hup
    have hsame := (hevolves.lived upper habove).1
    exact .child hlive hup habove named (hpath.trans (path.trans (hsame ▸ rfl))) (ih habove)

end Arena

namespace TreeView
variable {tree tree' : TreeView} {move : Move} {id : NodeId} {node : Node} {ticket : Ticket}

/-- Every node that is no shortcut, or that has children, descends from a top of the scope. -/
structure Descending (scope : Scope) (P : String → Prop) (tree : TreeView) : Prop where
  handles : tree.HandlesFit fun _ => True
  top : ∀ {id node}, tree.arena.get? id = some node → node.parent = none → scope.Top node.path
  descends : ∀ {id node}, tree.arena.get? id = some node →
    ¬ scope.volumes.Shortcut node.handle ∨ node.children ≠ [] → tree.arena.Descends P id

/-- The same of the node of a ticket, which may be gone while its path is still on the ticket. -/
structure Directs (scope : Scope) (P : String → Prop) (tree : TreeView) (ticket : Ticket) :
    Prop where
  knows : tree.Knows ticket
  leads : ¬ scope.volumes.Shortcut ticket.handle → scope.Leads P ticket.handle.path
  descends : ¬ scope.volumes.Shortcut ticket.handle →
    ∀ node, tree.arena.get? ticket.node = some node → tree.arena.Descends P ticket.node

theorem Descending.leads (h : tree.Descending scope P) (hd : tree.arena.Descends P id)
    (hlive : tree.arena.get? id = some node) : scope.Leads P node.path := by
  induction hd generalizing node with
  | top live up =>
    obtain rfl := Option.some.inj (live.symm.trans hlive)
    exact .top (h.top live up)
  | child live up upper named path rest ih =>
    obtain rfl := Option.some.inj (live.symm.trans hlive)
    exact path ▸ .child (ih upper) named

/-- The names that lead down from the root to a node; there are none to the root alone. -/
theorem WellFormed.names (hw : tree.WellFormed) (hd : tree.arena.Descends P id)
    (hlive : tree.arena.get? id = some node) {root : NodeId} {top : Node}
    (hroot : tree.root = some root) (htop : tree.arena.get? root = some top)
    (hnormal : Path.Normal top.path) (hP : ∀ name, P name → Path.IsName name) :
    Path.Normal node.path ∧ ∃ names, (∀ name ∈ names, P name) ∧
      Path.segments node.path = Path.segments top.path ++ names ∧ (names = [] → id = root) := by
  induction hd generalizing node with
  | top live up =>
    obtain rfl := Option.some.inj (hroot.symm.trans (hw.top live up))
    obtain rfl := Option.some.inj (hlive.symm.trans htop)
    exact ⟨hnormal, [], by simp, by simp, fun _ => rfl⟩
  | @child id parent was above name live up upper named path rest ih =>
    obtain rfl := Option.some.inj (live.symm.trans hlive)
    obtain ⟨habove, names, hnames, hsegments, _⟩ := ih upper
    refine ⟨path ▸ habove.child (hP name named), names ++ [name], ?_, ?_, by simp⟩
    · simpa [or_imp, forall_and] using And.intro hnames named
    · rw [path, Path.segments_child _ (hP name named), hsegments, List.append_assoc]

theorem Descending.names (h : tree.Descending scope P) (hw : tree.WellFormed)
    (hnormal : ∀ path, scope.Top path → Path.Normal path) (hP : ∀ name, P name → Path.IsName name)
    {top : String} (htop : tree.rootPath? = some top) (hlive : tree.arena.get? id = some node)
    (hplain : ¬ scope.volumes.Shortcut node.handle) :
    Path.Normal top ∧ ∃ names, (∀ name ∈ names, P name) ∧
      Path.segments node.path = Path.segments top ++ names := by
  obtain ⟨root, hroot, hpath⟩ := Option.bind_eq_some_iff.mp htop
  obtain ⟨node', hnode', rfl⟩ := Option.map_eq_some_iff.mp hpath
  obtain ⟨now, hnow, hup⟩ := hw.root_live hroot
  obtain rfl := Option.some.inj (hnow.symm.trans hnode')
  have hbound := hnormal _ (h.top hnow hup)
  obtain ⟨_, names, hnames, hsegments, _⟩ :=
    hw.names (h.descends hlive (.inl hplain)) hlive hroot hnow hbound hP
  exact ⟨hbound, names, hnames, hsegments⟩

theorem Directs.evolves (h : tree.Directs scope P ticket) {issued : List NodeId}
    (hevolves : Arena.Evolves issued tree.arena tree'.arena) (hlinked : tree'.arena.Linked) :
    tree'.Directs scope P ticket where
  knows := h.knows.evolves hevolves
  leads := h.leads
  descends := fun hplain _ hlive => by
    obtain ⟨was, hwas, _⟩ := hevolves.old hlive h.knows.1
    exact (h.descends hplain was hwas).evolves hevolves hlinked hlive

theorem Descending.directs (h : tree.Descending scope P) (hw : tree.WellFormed)
    (hlive : tree.arena.get? id = some node) (recursive : Bool) :
    (tree.bumped id).Directs scope P ⟨id, node.generation + 1, node.handle, recursive⟩ := by
  have hpath := (h.handles _ _ hlive).1
  have hevolves : Arena.Evolves [id] tree.arena (tree.bumped id).arena := .issue tree.arena id
  have hissued := get?_bumped hlive
  refine ⟨⟨(Arena.id_bounds hissued).2, fun now hnow => ?_⟩, fun hplain => ?_,
    fun hplain now hnow => ?_⟩
  · obtain rfl := Option.some.inj (hissued.symm.trans hnow)
    exact hpath
  · have hleads := h.leads (h.descends hlive (.inl hplain)) hlive
    rwa [← hpath] at hleads
  · exact (h.descends hlive (.inl hplain)).evolves hevolves (hw.bumped id).linked hnow

theorem Descending.of_face (h : tree.Descending scope P) {issued : List NodeId}
    (hevolves : Arena.Evolves issued tree.arena tree'.arena) (hlinked : tree'.arena.Linked)
    (hsame : ∀ id, (tree'.arena.get? id).map Node.face = (tree.arena.get? id).map Node.face) :
    tree'.Descending scope P := by
  have hface {id : NodeId} {node : Node} (hlive : tree'.arena.get? id = some node) :
      ∃ was, tree.arena.get? id = some was ∧ was.path = node.path ∧ was.handle = node.handle ∧
        was.children = node.children := by
    obtain ⟨was, hwas, heq⟩ := Arena.live_of_map_get?_eq (hsame id).symm hlive
    exact ⟨was, hwas, by simpa [Node.face] using heq⟩
  refine ⟨fun id node hlive => ?_, fun {id node} hlive hup => ?_, fun {id node} hlive hor => ?_⟩
  · obtain ⟨was, hwas, hpath, hhandle, _⟩ := hface hlive
    exact hpath ▸ hhandle ▸ h.handles _ _ hwas
  · obtain ⟨was, hwas, hpath, _⟩ := hface hlive
    exact hpath ▸ h.top hwas ((hevolves.lived hwas hlive).2.symm.trans hup)
  · obtain ⟨was, hwas, _, hhandle, hchildren⟩ := hface hlive
    exact (h.descends hwas (hhandle ▸ hchildren ▸ hor)).evolves hevolves hlinked hlive

theorem descending_bindTo {top : String} (htop : scope.Top top) :
    (tree.bindTo top).1.Descending scope P := by
  refine ⟨fun id node hlive => ?_, fun {id node} hlive _ => ?_, fun {id node} hlive _ => ?_⟩
  · obtain rfl := get?_bindTo hlive
    exact ⟨rfl, trivial⟩
  · obtain rfl := get?_bindTo hlive
    exact htop
  · obtain rfl := get?_bindTo hlive
    exact .top hlive rfl

theorem descending_clear (tree : TreeView) : tree.clear.Descending scope P := by
  constructor <;> simp [HandlesFit, clear]

theorem Descending.applied (h : tree.Descending scope P) (hfs : fs.LaysBelow scope.Filter P)
    (hw : tree.WellFormed) (hticket : tree.Directs scope P ticket)
    (hlive : tree.arena.get? ticket.node = some node) {listing : Listing}
    (hfetched : scope.Fetched fs ticket.handle listing) {children : List NodeId}
    (ha : Applied tree tree' ticket.node node listing children) : tree'.Descending scope P := by
  obtain ⟨hresolved, hentries⟩ := hfs.fetched hfetched
  have hlinked : tree'.arena.Linked := (ha.wellFormed hw hlive).linked
  have hevolves := ha.evolves hlive
  have hpath : ticket.handle.path = node.path := hticket.knows.2 node hlive
  have hnode := (h.handles _ _ hlive).1
  have hself := ha.relisted.self
  -- What was listed below the ticket's node lies below it in the tree.
  have hbelow {child : NodeId} {now : Node} {listed : Handle}
      (hnow : tree'.arena.get? child = some now) (hup : now.parent = some ticket.node)
      (hsame : now.path = listed.path) (hmem : listed ∈ listing.entries)
      (hplain : ¬ scope.volumes.Shortcut listed) : tree'.arena.Descends P child := by
    obtain ⟨hdirectory, hcases⟩ := hentries listed hmem
    obtain ⟨name, hname, hlisted⟩ := hcases.resolve_right fun hs => hplain hs.2
    have hrest := (hticket.descends hdirectory node hlive).evolves hevolves hlinked hself
    exact .child hnow hup hself hname (hsame.trans (hlisted.trans (hpath ▸ rfl))) hrest
  refine ⟨?_, fun {id now} hnow hup => ?_, fun {id now} hnow hor => ?_⟩
  · refine ha.handlesFit h.handles hlive (fun dir hdir => ⟨?_, trivial⟩) fun _ _ => trivial
    exact (hresolved dir hdir).1.trans (hpath.trans hnode.symm)
  · cases ha.relisted.origin hnow with
    | self eq =>
      have hbound : scope.Top node.path := h.top hlive hup
      exact hbound
    | added _ _ _ => cases hup
    | @kept listed was mem live _ _ =>
      have hbound : scope.Top was.path := h.top live hup
      exact hbound
    | untouched _ _ live => exact h.top live hup
  · cases ha.relisted.origin hnow with
    | self eq =>
      have hdirects : ¬ scope.volumes.Shortcut ticket.handle →
          tree'.arena.Descends P ticket.node := fun hplain =>
        (hticket.descends hplain node hlive).evolves hevolves hlinked hself
      subst eq
      rcases hor with hplain | hchildren
      · cases hr : listing.resolved with
        | some dir => exact hdirects (hresolved dir hr).2
        | none =>
          have hkept : ¬ scope.volumes.Shortcut node.handle := by
            simpa [Node.relisted, hr] using hplain
          exact (h.descends hlive (.inl hkept)).evolves hevolves hlinked hself
      · obtain ⟨child, hchild⟩ := List.exists_mem_of_ne_nil _ hchildren
        obtain ⟨listed, hmem, _⟩ := Arena.exists_of_mem_forall₂ ha.relisted.placed hchild
        exact hdirects (hentries listed hmem).1
    | @added listed mem fresh hmem =>
      refine hbelow hnow rfl rfl hmem (hor.resolve_right fun hne => hne rfl)
    | @kept listed was mem live hmem fated =>
      obtain ⟨_, hchild, hup⟩ := ha.relisted.child_live mem
      obtain rfl := Option.some.inj (hnow.symm.trans hchild)
      by_cases hplain : scope.volumes.Shortcut listed
      · have hchildren : was.children ≠ [] := hor.resolve_left fun hnot => hnot hplain
        exact (h.descends live (.inr hchildren)).evolves hevolves hlinked hnow
      · exact hbelow hnow hup (h.handles.path_of_kept live fated).symm hmem hplain
    | untouched _ _ live => exact (h.descends live hor).evolves hevolves hlinked hnow

theorem keeps_descending_of_lays (hfs : fs.LaysBelow scope.Filter P) :
    scope.Keeps fs (Descending scope P) (Directs scope P) where
  issue := fun recursive hw h hlive => h.directs hw hlive recursive
  act := by
    intro tree move hw h hmove hticket hsettle
    have hw' := hw.act_of_live hsettle
    have hevolves := evolves_act hw move
    refine ⟨?_, fun ticket hdirects => hdirects.evolves hevolves hw'.linked⟩
    cases move with
    | apply ticket fetched =>
      rcases applyFetched_cases hw ticket fetched with
        hsame | ⟨node, listing, children, rfl, hlive, _, happlied⟩
      · rwa [act, hsame]
      · exact h.applied hfs hw (hticket ticket _ rfl) hlive hmove happlied
    | clear => exact descending_clear tree
    | bindTo top => exact descending_bindTo hmove
    | _ =>
      exact h.of_face hevolves hw'.linked (face_act_of_kept tree (by simp) (by simp) (by simp))

theorem keeps_descending (hfs : fs.ListsBelow scope.Filter P) :
    scope.Keeps fs (Descending scope P) (Directs scope P) := keeps_descending_of_lays hfs.lays

theorem descending_unbound (scope : Scope) (P : String → Prop) (filter : NameFilter)
    (volumes : VolumeMap) : (unbound filter volumes).Descending scope P := by
  constructor <;> simp [HandlesFit, unbound]

end TreeView

theorem Session.keeping_descending {filter : NameFilter} (hfilter : scope.Filter filter)
    (P : String → Prop) (world : σ) :
    (start filter scope.volumes world).Keeping fs scope (TreeView.Descending scope P)
      (TreeView.Directs scope P) :=
  keeping_start hfilter (TreeView.descending_unbound ..) world

end LazyTree
