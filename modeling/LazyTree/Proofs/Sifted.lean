import LazyTree.Proofs.Handles
import LazyTree.Proofs.Refreshing
import LazyTree.Proofs.Walk
import LazyTree.FileSystem.Scripted
import LazyTree.TreeView.Drawing

/-!
What a filter lets through. A listing holds nothing that its filter hides, and the children it gave
a node still pass that filter when they are resolved. A new filter reaches all that is shown when
its refresh reports no failure; a filter that is in force already refreshes nothing, also where the
refresh that came with it had failed.
-/
namespace LazyTree
variable {σ : Type} {fs : FileSystem σ} {s : σ} {filter : NameFilter} {volumes : VolumeMap}
variable {handle : Handle} {listing : Listing}

namespace FileSystem

/-- A virtual entry resolves to a directory of the entry's name. -/
def KeepsNames (fs : FileSystem σ) : Prop :=
  ∀ {s t dir entries entry found}, (fs.enumerate s dir).1 = .ok entries → entry ∈ entries →
    entry.isVirtual = true → (fs.resolve t entry.path).1 = .ok found → found.name = entry.name

/-- The handle passes the filter, and a placeholder keeps its name when it is resolved. -/
def Sifts (fs : FileSystem σ) (filter : NameFilter) (handle : Handle) : Prop :=
  handle.kind = .searchRoot ∨ filter.admits handle.name = true ∧
    (handle.kind = .placeholder → ∀ {s found}, (fs.resolve s handle.path).1 = .ok found →
      found.name = handle.name)

theorem KeepsNames.sifts_arranged (h : fs.KeepsNames) {dir : String} {entries : List Entry}
    (henumerate : (fs.enumerate s dir).1 = .ok entries) :
    ∀ listed ∈ arrange filter volumes handle entries, fs.Sifts filter listed := by
  intro listed hlisted
  rcases mem_arrange hlisted with ⟨entry, hentry, hshows, label, rfl⟩ | ⟨_, root, _, rfl⟩
  · simp only [NameFilter.shows, Bool.and_eq_true] at hshows
    refine .inr ⟨hshows.2, fun hkind => h henumerate hentry ?_⟩
    simpa [Entry.toHandle] using hkind
  · exact .inl rfl

theorem KeepsNames.sifts_listed (h : fs.KeepsNames)
    (hfetch : (fetchVisible fs filter volumes handle s).1 = .ok listing) :
    ∀ listed ∈ listing.entries, fs.Sifts filter listed := by
  rcases fetchVisible_ok hfetch with ⟨_, rfl⟩ | ⟨_, hlist⟩ | ⟨found, _, _, _, hlist⟩
  · simp [Listing.empty]
  · obtain ⟨entries, henumerate, rfl⟩ := listDirectory_ok hlist
    exact h.sifts_arranged henumerate
  · obtain ⟨entries, henumerate, rfl⟩ := listDirectory_ok hlist
    exact h.sifts_arranged henumerate

/-- What passed a filter still passes it when its node is listed, by whatever filter. -/
theorem Sifts.resolved {shown : NameFilter} (h : fs.Sifts shown handle)
    (hfetch : (fetchVisible fs filter volumes handle s).1 = .ok listing) :
    fs.Sifts shown (listing.resolved.getD handle) := by
  rcases fetchVisible_ok hfetch with ⟨_, rfl⟩ | ⟨_, hlist⟩ | ⟨found, hkind, hfound, hreal, hlist⟩
  · exact h
  · obtain ⟨entries, _, rfl⟩ := listDirectory_ok hlist
    exact h
  · obtain ⟨entries, _, rfl⟩ := listDirectory_ok hlist
    rcases h with hroot | ⟨hadmits, hname⟩
    · simp [hkind] at hroot
    · refine .inr ⟨(hname hkind hfound).symm ▸ hadmits, fun hunresolved => ?_⟩
      have hplaceholder : found.kind = .placeholder := hunresolved
      simp [Handle.isUnresolved, hplaceholder] at hreal

end FileSystem

namespace TreeView
variable {tree tree' : TreeView} {target top id i : NodeId} {node : Node} {children : List NodeId}
variable {shown : NameFilter}

/-- All children of a node pass a filter. -/
def Sifted (fs : FileSystem σ) (filter : NameFilter) (tree : TreeView) (id : NodeId) : Prop :=
  ∀ child ∈ tree.children id, ∀ node, tree.arena.get? child = some node →
    fs.Sifts filter node.handle

theorem Sifted.of_face (h : tree.Sifted fs shown id)
    (hface : ∀ i, (tree'.arena.get? i).map Node.face = (tree.arena.get? i).map Node.face) :
    tree'.Sifted fs shown id := by
  have hchildren : tree'.children id = tree.children id := by
    have hmap := congrArg (Option.map fun face => face.2.2) (hface id)
    simp only [Option.map_map, Function.comp_def, Node.face] at hmap
    rw [children, children, Arena.childrenOf_eq_getD, Arena.childrenOf_eq_getD]
    exact congrArg (Option.getD · []) hmap
  intro child hc now hnow
  obtain ⟨was, hwas, hsame⟩ := Arena.live_of_map_get?_eq (hface child).symm hnow
  simp only [Node.face, Prod.mk.injEq] at hsame
  exact hsame.2.1 ▸ h child (hchildren ▸ hc) was hwas

theorem Applied.sifted (ha : Applied tree tree' target node listing children)
    (hlisted : ∀ listed ∈ listing.entries, fs.Sifts shown listed) :
    tree'.Sifted fs shown target := by
  intro child hc now hnow
  rw [TreeView.children, Arena.childrenOf_of_live ha.relisted.self] at hc
  obtain ⟨listed, hmem, hplaced⟩ := Arena.exists_of_mem_forall₂ ha.relisted.placed hc
  cases hplaced with
  | added _ live =>
    obtain rfl := Option.some.inj (hnow.symm.trans live)
    exact hlisted _ hmem
  | kept _ _ live =>
    obtain rfl := Option.some.inj (hnow.symm.trans live)
    exact hlisted _ hmem

theorem Sifted.applied (h : tree.Sifted fs shown id)
    (ha : Applied tree tree' target node listing children)
    (hlive : tree.arena.get? target = some node) (hne : id ≠ target)
    (hfetch : (fetchVisible fs filter volumes node.handle s).1 = .ok listing) :
    tree'.Sifted fs shown id := by
  intro child hc now hnow
  have helsewhere (hmem : child ∈ children) : False := by
    have htarget : child ∈ tree'.children target := by
      rwa [TreeView.children, Arena.childrenOf_of_live ha.relisted.self]
    exact hne (ha.relisted.linked.same_lister hc htarget)
  have hbefore : child ∈ tree.children id := by
    obtain ⟨lister, hlister, hmem⟩ := Arena.live_of_mem_childrenOf hc
    cases ha.relisted.origin hlister with
    | self eq => exact absurd eq hne
    | added _ _ _ => simp [Node.fresh] at hmem
    | kept _ live _ _ => rwa [TreeView.children, Arena.childrenOf_of_live live]
    | untouched _ _ live => rwa [TreeView.children, Arena.childrenOf_of_live live]
  cases ha.relisted.origin hnow with
  | self eq => exact (h child hbefore node (eq ▸ hlive)).resolved hfetch
  | added mem _ _ => exact (helsewhere mem).elim
  | kept mem _ _ _ => exact (helsewhere mem).elim
  | untouched _ _ live => exact h child hbefore now live

theorem Sifted.visitChecks (h : tree.Sifted fs shown i) (lister : Lister) (id : NodeId)
    (always : Bool) (outcome : MergeOutcome) :
    (visitChecks fs lister id always outcome tree s).tree.Sifted fs shown i :=
  h.of_face fun _ => map_get?_visitChecks (fun _ _ => rfl) ..

theorem sifted_of_visit (hnames : fs.KeepsNames) (hw : tree.WellFormed)
    (hlive : tree.arena.get? id = some node) {lister : Lister} {recursive always : Bool}
    {outcome : MergeOutcome}
    (h : (visit fs lister id recursive always tree s).answer = .ok (.applied outcome)) :
    (visit fs lister id recursive always tree s).tree.Sifted fs lister.filter id := by
  rcases visit_of_live hw hlive fs lister recursive always s with
    ⟨e, _, heq⟩ | ⟨listing, _, listed, children, hfetch, happlied, _, heq⟩
  · simp [heq] at h
  · rw [heq]
    exact (happlied.sifted (hnames.sifts_listed hfetch)).visitChecks lister id always _

theorem Sifted.visit (h : tree.Sifted fs shown i) (hnames : fs.KeepsNames) (hw : tree.WellFormed)
    (hlive : tree.arena.get? id = some node) (lister : Lister) (recursive always : Bool)
    (hfilter : i = id → lister.filter = shown) :
    (visit fs lister id recursive always tree s).tree.Sifted fs shown i := by
  have hbumped : (tree.bumped id).Sifted fs shown i :=
    h.of_face (map_get?_bumped (fun _ _ => rfl) tree id)
  rcases visit_of_live hw hlive fs lister recursive always s with
    ⟨e, _, heq⟩ | ⟨listing, _, listed, children, hfetch, happlied, _, heq⟩
  · rwa [heq]
  · rw [heq]
    refine Sifted.visitChecks ?_ lister id always _
    by_cases hi : i = id
    · subst hi
      exact happlied.sifted (hfilter rfl ▸ hnames.sifts_listed hfetch)
    · exact hbumped.applied happlied (get?_bumped hlive) hi hfetch

theorem kept_sifted (hnames : fs.KeepsNames) (lister : Lister) :
    KeptByListing fs lister fun visited tree _ =>
      ∀ i ∈ visited, tree.Sifted fs lister.filter i := by
  intro top start visited queue tree s id node outcome h hlive hsifted v happlied i hi
  rcases List.mem_append.mp hi with hi | hi
  · exact (hsifted i hi).visit hnames h.wellFormed hlive lister true false fun _ => rfl
  · obtain rfl := List.mem_singleton.mp hi
    exact sifted_of_visit hnames h.wellFormed hlive happlied

def AllSifted (fs : FileSystem σ) (filter : NameFilter) (tree : TreeView) : Prop :=
  ∀ root, tree.root = some root → ∀ i, tree.Covered root i → tree.Sifted fs filter i

theorem sifted_of_refresh (hnames : fs.KeepsNames) (hw : tree.WellFormed) {s' : σ} {totals : Totals}
    (h : refresh fs top true tree s = (.ok totals, tree', s')) (hfailed : totals.failed = 0)
    (hcovered : tree'.Covered top i) : tree'.Sifted fs tree.filter i := by
  obtain ⟨_, hwalk, hsifted⟩ :=
    walk_of_full_refresh (kept_sifted hnames tree.lister) hw h hfailed fun hlive happlied i hi => by
      obtain rfl := List.mem_singleton.mp hi
      exact sifted_of_visit hnames hw hlive happlied
  exact hsifted i (hwalk.visited_of_covered hcovered)

/-- Every row shows a directory that the filter admits, or the root, or a search root. -/
def Obeys (tree : TreeView) (filter : NameFilter) : Prop :=
  ∀ row ∈ tree.rows false, ∀ node, tree.node? row.id = some node → tree.root ≠ some row.id →
    node.handle.kind ≠ .searchRoot → filter.admits node.handle.name = true

theorem map_fst_markLast {α : Type} (items : List α) :
    (markLast items).map Prod.fst = items := by
  fun_induction markLast items with
  | case1 => rfl
  | case2 a => rfl
  | case3 a b rest ih => rw [List.map_cons, ih]

theorem mem_of_mem_markLast {α : Type} {items : List α} {marked : α × Bool}
    (h : marked ∈ markLast items) : marked.1 ∈ items := by
  rw [← map_fst_markLast items]
  exact List.mem_map_of_mem h

/-- Below its first row, a node is shown as the child of a covered one. -/
theorem shown_of_mem_rowsFrom {levels depth : Nat} {isLast : Bool} {row : Row}
    (hrow : row ∈ tree.rowsFrom false levels depth id isLast)
    (hcovered : tree.arena.isExpanded id = true → tree.Covered top id) :
    row.id = id ∨ ∃ parent, tree.Covered top parent ∧ row.id ∈ tree.children parent := by
  induction levels generalizing depth id isLast with
  | zero => simp [rowsFrom] at hrow
  | succ levels ih =>
    unfold rowsFrom at hrow
    cases hlive : tree.node? id with
    | none => simp [hlive] at hrow
    | some node =>
      simp only [hlive, Bool.or_false] at hrow
      rcases List.mem_cons.mp hrow with rfl | hrow
      · exact .inl rfl
      · split at hrow
        · rename_i hexpanded
          have hid := hcovered ((Arena.isExpanded_of_live hlive).trans hexpanded)
          obtain ⟨child, hchild, hrow⟩ := List.mem_flatMap.mp hrow
          have hlisted : child.1 ∈ tree.children id := by
            rw [TreeView.children, Arena.childrenOf_of_live hlive]
            exact mem_of_mem_markLast hchild
          rcases ih hrow (Covered.child hid hlisted) with heq | hbelow
          · exact .inr ⟨id, hid, heq ▸ hlisted⟩
          · exact .inr hbelow
        · simp at hrow

theorem AllSifted.obeys (h : tree.AllSifted fs filter) : tree.Obeys filter := by
  intro row hrow node hlive hnot hkind
  unfold rows at hrow
  cases hroot : tree.root with
  | none => simp [hroot] at hrow
  | some root =>
    rw [hroot] at hrow hnot
    rcases shown_of_mem_rowsFrom hrow fun _ => .self with heq | ⟨parent, hcovered, hlisted⟩
    · exact absurd (congrArg some heq.symm) hnot
    · rcases h root hroot parent hcovered row.id hlisted node hlive with hsearch | ⟨hadmits, _⟩
      · exact absurd hsearch hkind
      · exact hadmits

theorem filter_useFilter (hw : tree.WellFormed) (fs : FileSystem σ) (next : NameFilter) (s : σ) :
    (tree.useFilter fs next s).2.1.filter = next := by
  by_cases hsame : tree.filter = next
  · rw [useFilter, if_pos hsame.symm]
    exact hsame
  · cases hroot : tree.root with
    | none => simp [useFilter, Ne.symm hsame, hroot]
    | some root =>
      rw [useFilter_of_root hroot hsame]
      exact filter_of_frame (frame_refresh (hw.refiltered next) fs root true s)

theorem useFilter_again (h : tree.filter = filter) (fs : FileSystem σ) (s : σ) :
    tree.useFilter fs filter s = (.ok .zero, tree, s) := by
  rw [useFilter, if_pos h.symm]

theorem allSifted_of_useFilter (hnames : fs.KeepsNames) (hw : tree.WellFormed) {next : NameFilter}
    (hnew : tree.filter ≠ next) {totals : Totals} {s' : σ}
    (h : tree.useFilter fs next s = (.ok totals, tree', s')) (hfailed : totals.failed = 0) :
    tree'.AllSifted fs next := by
  intro root' hroot' i hcovered
  cases hroot : tree.root with
  | none =>
    simp only [useFilter, if_neg (Ne.symm hnew), hroot, Prod.mk.injEq] at h
    simp [← h.2.1] at hroot'
  | some root =>
    rw [useFilter_of_root hroot hnew] at h
    have hframe := frame_refresh (hw.refiltered next) fs root true s
    rw [h] at hframe
    have hsame : tree'.root = some root := (root_of_frame hframe).trans hroot
    obtain rfl := Option.some.inj (hsame.symm.trans hroot')
    exact sifted_of_refresh hnames (hw.refiltered next) h hfailed hcovered

end TreeView

namespace Session

/-- A filter that is in force already is not refreshed for, whatever came of the refresh before. -/
theorem run_useFilter_obeys (fs : FileSystem σ) (hnames : fs.KeepsNames) (filter : NameFilter)
    (volumes : VolumeMap) (world : σ) (actions : List (Action σ)) (next : NameFilter) :
    let x := (start filter volumes world).run fs actions
    ∀ answer tree s, x.tree.useFilter fs next x.world = (answer, tree, s) →
      (∀ totals, answer = .ok totals → totals.failed = 0 →
        (tree.Obeys next ↔ (x.tree.filter = next → x.tree.Obeys next))) ∧
      ∀ t, tree.useFilter fs next t = (.ok .zero, tree, t) := by
  intro x answer tree s h
  have hw : x.tree.WellFormed := wellFormed_run (wellFormed_start filter volumes world) fs actions
  refine ⟨?_, TreeView.useFilter_again ?_ fs⟩
  · rintro totals rfl hfailed
    by_cases hsame : x.tree.filter = next
    · rw [TreeView.useFilter_again hsame] at h
      obtain rfl : x.tree = tree := congrArg (fun result => result.2.1) h
      exact ⟨fun hobeys _ => hobeys, fun himp => himp hsame⟩
    · exact iff_of_true (TreeView.allSifted_of_useFilter hnames hw hsame h hfailed).obeys
        (absurd · hsame)
  · have hfilter := TreeView.filter_useFilter hw fs next x.world
    rwa [h] at hfilter

theorem endless_keepsNames : FileSystem.endless.KeepsNames := by
  intro s t dir entries entry found henumerate hentry hvirtual _
  obtain rfl : _ = entries := Except.ok.inj henumerate
  rcases List.mem_cons.mp hentry with rfl | hentry
  · simp at hvirtual
  · obtain rfl := List.mem_singleton.mp hentry
    simp at hvirtual

/-- The directories that were hidden are shown below the root and below its expanded child. -/
theorem endless_useFilter_obeys :
    let x := (start ⟨true, ["b"]⟩ ⟨"/net", [], "", "", [], []⟩ ()).run .endless
      [.operate (.select "/A" 1), .operate (.expand 2)]
    (x.tree.useFilter .endless .hideDotNames ()).2.1.Obeys .hideDotNames :=
  ((run_useFilter_obeys .endless endless_keepsNames ⟨true, ["b"]⟩ ⟨"/net", [], "", "", [], []⟩ ()
    [.operate (.select "/A" 1), .operate (.expand 2)] .hideDotNames _ _ _ rfl).1
    ⟨2, 2, 0, 0, false, 3⟩ (by decide +kernel) rfl).mpr fun h => absurd h (by decide +kernel)

/-- The directory cannot be listed when its hidden child is to go; afterwards the same request does
nothing. -/
theorem retried_filter_shows_hidden :
    let healthy : Scripted :=
      { Scripted.empty with listings := [("/a", [.directory "/a/.b"]), ("/a/.b", [])] }
    let closed := { healthy with failures := [("/a", .other)] }
    let x := (start .everything ⟨"/net", [], "", "", [], []⟩ healthy).run Scripted.fileSystem
      [.operate (.select "/a" 2), .drift closed]
    let y := x.run Scripted.fileSystem [.operate (.useFilter .hideDotNames), .drift healthy]
    (x.tree.useFilter Scripted.fileSystem .hideDotNames closed).1 =
        .error (.io (Scripted.injected .other)) ∧
      (y.tree.useFilter Scripted.fileSystem .hideDotNames healthy).1 = .ok .zero ∧
      ¬ (y.tree.useFilter Scripted.fileSystem .hideDotNames healthy).2.1.Obeys .hideDotNames := by
  refine ⟨by decide +kernel, by decide +kernel, fun h => ?_⟩
  have hadmits := h ⟨2, ".b", 1, false, true, false⟩ (by decide +kernel)
    ⟨"/a/.b", .real "/a/.b", some 1, [], false, false, 0⟩ (by decide +kernel) (by decide +kernel)
    (by decide +kernel)
  exact absurd hadmits (by decide +kernel)

end Session

end LazyTree
